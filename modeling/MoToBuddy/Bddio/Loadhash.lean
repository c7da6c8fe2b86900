import MoToBuddy.Lib.Chain
import MoToBuddy.Lib.While
import Mathlib.Data.Int.Notation
import Mathlib.Tactic.Ring

/-!
# The hash of the loader (`bddio.c`)

`bdd_load` keeps the nodes that it has read in one array of slots with the heads of the buckets, the
links of the chains and the free list. A link of `-1` is `none`.

* `Holds`: the table has the entries, each in the chain of its bucket, and the other slots are free.
* `Holds.insert`: `loadhash_insert` adds an entry.
-/

namespace MoToBuddy.Bddio

open Chained CountedLoop

structure LoadHash where
  key : ℤ
  data : ℤ
  first : Option ℕ
  next : Option ℕ
  deriving DecidableEq, Repr

/-- `lh_table`, `lh_nodenum`, `lh_freepos` and `lh_count`. -/
structure Loader where
  table : ℕ → LoadHash
  nodenum : ℕ
  freepos : Option ℕ
  count : ℕ

/-- The table before anything is in it, as `bdd_load` and `loadhash_realloc` make it. -/
def freshLoader (nodenum : ℕ) : Loader where
  table n := ⟨0, 0, none, if n = nodenum - 1 then none else some (n + 1)⟩
  nodenum := nodenum
  freepos := some 0
  count := 0

/-- `key % lh_nodenum`, as an index. -/
def loadhashIndex (key : ℤ) (nodenum : ℕ) : Option ℕ :=
  if key.tmod nodenum < 0 then none else some (key.tmod nodenum).toNat

/-- `loadhash_insert`. -/
def loadhashInsert (key data : ℤ) (s : Loader) : Option Loader := do
  let hash ← loadhashIndex key s.nodenum
  let pos ← s.freepos
  let freepos := (s.table pos).next
  let table := Function.update s.table pos { s.table pos with next := (s.table hash).first }
  let table := Function.update table hash { table hash with first := some pos }
  let table := Function.update table pos { table pos with key, data }
  return { s with table, freepos, count := s.count + 1 }

/-- The walk along a chain of the old table. -/
def rehashChain (old : ℕ → LoadHash) : ℕ → Option ℕ → Loader → Option Loader
  | 0, _, _ => none
  | _ + 1, none, s => some s
  | fuel + 1, some p, s => do
    let s ← loadhashInsert (old p).key (old p).data s
    rehashChain old fuel (old p).next s

/-- `loadhash_realloc`, with the code that it returns, for what `malloc` does. Nothing is defined for
a size that an `int` cannot hold. -/
def loadhashRealloc (malloc : ℕ → Bool) (fuel : ℕ) (s : Loader) : Option (ℤ × Loader) :=
  if 2 * s.nodenum ≥ 2 ^ 31 then none
  else if malloc (2 * s.nodenum) then do
    let new ← (List.range s.nodenum).foldlM
      (fun new b => rehashChain s.table fuel (s.table b).first new) (freshLoader (2 * s.nodenum))
    return (0, new)
  else some (-1, s)

def loadhashAdd (malloc : ℕ → Bool) (fuel : ℕ) (s : Loader) (a : ℤ × ℤ) : Option Loader :=
  match s.freepos with
  | none => do
    let (code, s) ← loadhashRealloc malloc fuel s
    if code < 0 then return s else loadhashInsert a.1 a.2 s
  | some _ => loadhashInsert a.1 a.2 s

/-- `loadhash_get`. -/
def loadhashGet (fuel : ℕ) (key : ℤ) (s : Loader) : Option ℤ := do
  let index ← loadhashIndex key s.nodenum
  let hash ← whileDo (fun hash => hash.any fun hash => (s.table hash).key ≠ key)
    (fun hash => hash.map fun hash => (s.table hash).next) fuel (s.table index).first
  match hash with
  | none => return -1
  | some hash => return (s.table hash).data

/-! ## The links of the table -/

/-- Slot `n` is node `n + 1`, and no slot is `0`. -/
def link (o : Option ℕ) : ℕ := o.elim 0 (· + 1)

@[simp] theorem link_none : link none = 0 := rfl

@[simp] theorem link_some (n : ℕ) : link (some n) = n + 1 := rfl

theorem link_eq_zero {o : Option ℕ} : link o = 0 ↔ o = none := by
  cases o <;> simp

def Loader.links (s : Loader) : Links where
  head b := if b = 0 then 0 else link (s.table (b - 1)).first
  next n := if n = 0 then 0 else link (s.table (n - 1)).next
  free := link s.freepos
  freenum := s.nodenum - s.count

/-- The bucket of the entry in a slot. -/
def Loader.bucket (s : Loader) (n : ℕ) : ℕ := (s.table (n - 1)).key.toNat % s.nodenum + 1

theorem loadhashIndex_eq {key : ℤ} {nodenum : ℕ} (h : 0 ≤ key) :
    loadhashIndex key nodenum = some (key.toNat % nodenum) := by
  obtain ⟨k, rfl⟩ := Int.eq_ofNat_of_zero_le h
  have hmod : (k : ℤ).tmod nodenum = (k % nodenum : ℕ) := by
    rw [Int.tmod_eq_emod_of_nonneg h]
    rfl
  unfold loadhashIndex
  rw [hmod, if_neg (by omega)]
  rfl

/-- The table has the entries, each in the chain of its bucket. The other slots are free, with no
node in them. -/
structure Holds (s : Loader) (adds : List (ℤ × ℤ)) (live : ℕ → Prop) : Prop where
  pos : 0 < s.nodenum
  threaded : Threaded 1 (s.nodenum + 1) live s.bucket s.links
  count : s.count = adds.length
  le : adds.length ≤ s.nodenum
  mem : ∀ a, a ∈ adds ↔ ∃ n < s.nodenum, live (n + 1) ∧ ((s.table n).key, (s.table n).data) = a
  inj : ∀ n m, n < s.nodenum → m < s.nodenum → live (n + 1) → live (m + 1) →
    (s.table n).key = (s.table m).key → n = m
  nonneg : ∀ a ∈ adds, 0 ≤ a.1
  unused : ∀ n, ¬ live (n + 1) → (s.table n).data = 0

variable {s : Loader} {adds adds' : List (ℤ × ℤ)} {live live' : ℕ → Prop} {key data : ℤ}
  {fuel hash pos : ℕ}

/-! ## An entry more -/

/-- The table with the entry in slot `pos` and bucket `hash`. -/
def Loader.inserted (s : Loader) (key data : ℤ) (hash pos : ℕ) : Loader :=
  { s with
    table := fun n =>
      { key := if n = pos then key else (s.table n).key
        data := if n = pos then data else (s.table n).data
        first := if n = hash then some pos else (s.table n).first
        next := if n = pos then (s.table hash).first else (s.table n).next }
    freepos := (s.table pos).next
    count := s.count + 1 }

theorem loadhashInsert_eq (hkey : 0 ≤ key) (hpos : s.freepos = some pos) :
    loadhashInsert key data s = some (s.inserted key data (key.toNat % s.nodenum) pos) := by
  unfold loadhashInsert
  rw [loadhashIndex_eq hkey, hpos]
  refine congrArg some ?_
  unfold Loader.inserted
  simp only [Loader.mk.injEq, and_true]
  refine funext fun n => ?_
  by_cases hn : n = pos
  · subst hn
    by_cases hh : n = key.toNat % s.nodenum
    · simp [← hh]
    · simp [hh]
  · by_cases hh : n = key.toNat % s.nodenum
    · subst hh
      simp [hn]
    · simp [hn, hh]

theorem links_inserted (hpos : s.freepos = some pos) :
    (s.inserted key data hash pos).links = s.links.take.insert (hash + 1) (pos + 1) := by
  have hfree : s.links.free = pos + 1 := by simp [Loader.links, hpos]
  refine Links.ext (funext fun b => ?_) (funext fun n => ?_) ?_ ?_
  · cases b with
    | zero => simp [Loader.links, Links.insert, Links.take]
    | succ b =>
      by_cases hb : b = hash
      · simp [Loader.links, Links.insert, Links.take, Loader.inserted, hb]
      · simp [Loader.links, Links.insert, Links.take, Loader.inserted, hb]
  · cases n with
    | zero => simp [Loader.links, Links.insert, Links.take]
    | succ n =>
      by_cases hn : n = pos
      · simp [Loader.links, Links.insert, Links.take, Loader.inserted, hn]
      · simp [Loader.links, Links.insert, Links.take, Loader.inserted, hn]
  · simp only [Links.insert, Links.take, hfree]
    simp [Loader.links, Loader.inserted]
  · simp only [Links.insert, Links.take, Loader.links, Loader.inserted]
    omega

/-- There is room as long as a slot is free. -/
theorem Holds.room (h : Holds s adds live) (hpos : s.freepos = some pos) :
    pos < s.nodenum ∧ ¬ live (pos + 1) ∧ adds.length < s.nodenum := by
  have hfree : s.links.free = pos + 1 := by simp [Loader.links, hpos]
  obtain ⟨hlo, hlt, hnot⟩ := h.threaded.free.head (by rw [hfree]; omega)
  rw [hfree] at hlt hnot
  refine ⟨by omega, hnot, ?_⟩
  obtain ⟨l, hc, -, hlen, -⟩ := h.threaded.free
  cases l with
  | nil =>
    rw [isChain_nil, hfree] at hc
    omega
  | cons n l =>
    simp only [Loader.links, List.length_cons, h.count] at hlen
    omega

/-- `loadhash_insert` adds an entry. -/
theorem Holds.insert (h : Holds s adds live) (data : ℤ) (hkey : 0 ≤ key)
    (hnew : ∀ a ∈ adds, a.1 ≠ key) (hpos : s.freepos = some pos) :
    ∃ s', loadhashInsert key data s = some s' ∧ s'.nodenum = s.nodenum ∧
      Holds s' (adds ++ [(key, data)]) fun n => live n ∨ n = pos + 1 := by
  obtain ⟨hlt, hnot, hroom⟩ := h.room hpos
  have hfree : s.links.free = pos + 1 := by simp [Loader.links, hpos]
  -- a live slot is not the one that is taken
  have hne : ∀ n, live (n + 1) → n ≠ pos := by
    rintro n hn rfl
    exact hnot hn
  have hkeys : ∀ n < s.nodenum, live (n + 1) → (s.table n).key ≠ key := fun n hn hl =>
    hnew _ ((h.mem ((s.table n).key, (s.table n).data)).mpr ⟨n, hn, hl, rfl⟩)
  refine ⟨_, loadhashInsert_eq hkey hpos, rfl, h.pos, ?_, ?_, ?_, fun a => ?_,
    fun n m hn hm hln hlm heq => ?_, fun a ha => ?_, fun n hn => ?_⟩
  · have halloc := h.threaded.alloc (by rw [hfree]; omega) (key.toNat % s.nodenum + 1)
    rw [links_inserted hpos, ← hfree]
    refine halloc.congr (fun _ _ _ => Iff.rfl) fun n hn _ hl => ?_
    rw [hfree] at hl ⊢
    by_cases hnp : n = pos + 1
    · simp [hnp, Loader.bucket, Loader.inserted]
    · rw [Function.update_of_ne hnp]
      simp [Loader.bucket, Loader.inserted, show n - 1 ≠ pos by omega]
  · rw [List.length_append]
    exact congrArg (· + 1) h.count
  · rw [List.length_append]
    exact hroom
  · rw [List.mem_append, List.mem_singleton, h.mem a]
    constructor
    · rintro (⟨n, hn, hl, rfl⟩ | rfl)
      · exact ⟨n, hn, Or.inl hl, by simp [Loader.inserted, hne n hl]⟩
      · exact ⟨pos, hlt, Or.inr rfl, by simp [Loader.inserted]⟩
    · rintro ⟨n, hn, hl | hl, rfl⟩
      · exact Or.inl ⟨n, hn, hl, by simp [Loader.inserted, hne n hl]⟩
      · obtain rfl : n = pos := by omega
        exact Or.inr (by simp [Loader.inserted])
  · simp only [Loader.inserted] at heq
    rcases hln with hln | hln <;> rcases hlm with hlm | hlm
    · rw [if_neg (hne n hln), if_neg (hne m hlm)] at heq
      exact h.inj n m hn hm hln hlm heq
    · rw [if_neg (hne n hln), if_pos (by omega)] at heq
      exact absurd heq (hkeys n hn hln)
    · rw [if_pos (by omega), if_neg (hne m hlm)] at heq
      exact absurd heq.symm (hkeys m hm hlm)
    · omega
  · rcases List.mem_append.mp ha with ha | ha
    · exact h.nonneg a ha
    · rw [List.mem_singleton.mp ha]
      exact hkey
  · obtain ⟨hno, hne⟩ := not_or.mp hn
    have hnp : n ≠ pos := fun heq => hne (by rw [heq])
    simpa [Loader.inserted, hnp] using h.unused n hno

/-- Only the entries count, not the order in which they have come. -/
theorem Holds.perm (h : Holds s adds live) (hp : adds.Perm adds') : Holds s adds' live where
  pos := h.pos
  threaded := h.threaded
  count := h.count.trans hp.length_eq
  le := hp.length_eq ▸ h.le
  mem a := hp.mem_iff.symm.trans (h.mem a)
  inj := h.inj
  nonneg a ha := h.nonneg a (hp.mem_iff.mpr ha)
  unused := h.unused

end MoToBuddy.Bddio
