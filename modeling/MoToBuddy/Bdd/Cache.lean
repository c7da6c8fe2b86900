import Mathlib.Logic.Function.Basic
import MoToBuddy.Basic

/-!
# Operator caches (`cache.c`, `cache.h`)

A cache is a direct-mapped table: the hash selects an entry, the stored arguments are compared,
and a generation tells whether the entry was written since the last reset.

Node ids are natural numbers, other `int` fields hold the bits of the number; `-1` is
`0xFFFFFFFF`. Generations are unbounded.
-/

namespace MoToBuddy.Bdd

/-- `BddCacheData`, without the `double` results. -/
structure BddCacheData where
  res : ℕ
  r2 : ℕ
  a : ℕ
  b : ℕ
  c : ℕ
  d : ℕ
  generation : ℕ
  deriving DecidableEq, Repr

/-- An entry as `calloc` leaves it. -/
def BddCacheData.zero : BddCacheData := ⟨0, 0, 0, 0, 0, 0, 0⟩

/-- `BddCache`. -/
structure BddCache where
  table : ℕ → BddCacheData
  tablesize : ℕ
  currentGeneration : ℕ

/-- `-1` in an `int` field. -/
abbrev minusOne : ℕ := 0xFFFFFFFF

namespace BddCache

/-- `BddCache_init`, with `size` from `bdd_prime_gte`. -/
def init (size : ℕ) : BddCache := ⟨fun _ => .zero, size, 1⟩

/-- `BddCache_resize`, with `size` from `bdd_prime_gte`. -/
def resize (c : BddCache) (size : ℕ) : BddCache :=
  ⟨fun _ => .zero, size, c.currentGeneration + 1⟩

/-- `BddCache_reset`. -/
def reset (c : BddCache) : BddCache := { c with currentGeneration := c.currentGeneration + 1 }

/-- `BddCache_lookup`: the entry's index. -/
def lookup (c : BddCache) (hash : UInt32) : ℕ := hashrange hash c.tablesize

/-- `BddCache_is_valid`. -/
def isValid (c : BddCache) (i : ℕ) : Bool := (c.table i).generation = c.currentGeneration

/-- Write an entry with the current generation. -/
def write (c : BddCache) (i : ℕ) (e : BddCacheData) : BddCache :=
  { c with table := Function.update c.table i { e with generation := c.currentGeneration } }

/-- No entry is from a later generation, and zeroed entries are not valid. -/
structure Inv (c : BddCache) : Prop where
  pos : 0 < c.currentGeneration
  le : ∀ i, (c.table i).generation ≤ c.currentGeneration

theorem inv_init (size : ℕ) : (init size).Inv := ⟨Nat.one_pos, fun _ => Nat.zero_le 1⟩

theorem inv_resize (c : BddCache) (size : ℕ) : (c.resize size).Inv :=
  ⟨Nat.succ_pos _, fun _ => Nat.zero_le _⟩

theorem Inv.reset {c : BddCache} (h : c.Inv) : c.reset.Inv :=
  ⟨Nat.succ_pos _, fun i => Nat.le_succ_of_le (h.le i)⟩

theorem Inv.write {c : BddCache} (h : c.Inv) (i : ℕ) (e : BddCacheData) : (c.write i e).Inv := by
  refine ⟨h.pos, fun j => ?_⟩
  simp only [BddCache.write, Function.update_apply]
  split
  · exact Nat.le_refl _
  · exact h.le j

/-- A fresh table holds no result. -/
theorem init_isValid (size i : ℕ) : (init size).isValid i = false := rfl

theorem resize_isValid (c : BddCache) (size i : ℕ) : (c.resize size).isValid i = false :=
  decide_eq_false (Nat.succ_ne_zero _).symm

theorem Inv.reset_isValid {c : BddCache} (h : c.Inv) (i : ℕ) : c.reset.isValid i = false :=
  decide_eq_false (Nat.ne_of_lt (Nat.lt_succ_of_le (h.le i)))

/-- A valid entry after a write is the one written or was valid before. -/
theorem write_valid {c : BddCache} {i j : ℕ} {e : BddCacheData}
    (h : (c.write i e).isValid j = true) :
    j = i ∧ (c.write i e).table j = { e with generation := c.currentGeneration } ∨
      c.isValid j = true ∧ (c.write i e).table j = c.table j := by
  by_cases hj : j = i
  · left
    refine ⟨hj, ?_⟩
    rw [hj, write]
    exact Function.update_self ..
  · right
    have ht : (c.write i e).table j = c.table j := Function.update_of_ne hj _ _
    refine ⟨?_, ht⟩
    rw [isValid, ht] at h
    exact h

end BddCache

/-- The operator caches of `bddop.c`. -/
inductive CacheId
  | apply | ite | quant | appex | replace | misc | mtbddApply | mtbddIte | mtbddOperation
  deriving DecidableEq, Repr

/-- All operator caches. -/
abbrev Caches := CacheId → BddCache

/-- `bdd_operator_reset`. -/
def Caches.reset (C : Caches) : Caches := fun k => (C k).reset

/-- Write an entry of one of the caches. -/
def Caches.write (C : Caches) (k : CacheId) (i : ℕ) (e : BddCacheData) : Caches :=
  Function.update C k ((C k).write i e)

/-- A valid entry after a write is the one written or was valid before. -/
theorem Caches.write_valid {C : Caches} {k k' : CacheId} {i j : ℕ} {e : BddCacheData}
    (h : (C.write k i e k').isValid j = true) :
    k' = k ∧ j = i ∧ (C.write k i e k').table j =
        { e with generation := (C k).currentGeneration } ∨
      (C k').isValid j = true ∧ (C.write k i e k').table j = (C k').table j := by
  by_cases hk : k' = k
  · subst hk
    have hw : C.write k' i e k' = (C k').write i e := Function.update_self ..
    rw [hw] at h ⊢
    rcases BddCache.write_valid h with ⟨hj, ht⟩ | h'
    · exact Or.inl ⟨rfl, hj, ht⟩
    · exact Or.inr h'
  · have hw : C.write k i e k' = C k' := Function.update_of_ne hk _ _
    rw [hw] at h ⊢
    exact Or.inr ⟨h, rfl⟩

theorem Caches.write_inv {C : Caches} (h : ∀ k, (C k).Inv) (k : CacheId) (i : ℕ)
    (e : BddCacheData) (k' : CacheId) : (C.write k i e k').Inv := by
  unfold Caches.write
  rw [Function.update_apply]
  split
  · exact (h k).write i e
  · exact h k'

end MoToBuddy.Bdd
