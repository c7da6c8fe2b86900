import MoToBuddy.Lib.Loop
import Mathlib.Data.Nat.ModEq

/-!
# Open addressing with linear probing

A table of `cap` slots holds nonzero entries; `0` is an empty slot. An entry with home
slot `h` is put into the first empty slot of the cyclic sequence `h, h + 1, …`, and a
lookup walks the same sequence up to the first empty slot. `Placed` says that the walk
from `h` meets the entry, which inserting further entries keeps; entries are never
removed one by one, a table is rebuilt instead.
-/

namespace Probing

open CountedLoop

/-- `while (slots[i] != 0) i = (i + 1) % cap; return i;` with at most `fuel` rounds. -/
def firstEmpty (cap : ℕ) (slots : ℕ → ℕ) : ℕ → ℕ → ℕ
  | 0, i => i
  | fuel + 1, i => if slots i = 0 then i else firstEmpty cap slots fuel ((i + 1) % cap)

/-- The walk of a lookup: the first entry that passes the test, `0` at an empty slot. -/
def lookup (cap : ℕ) (slots : ℕ → ℕ) (p : ℕ → Bool) : ℕ → ℕ → ℕ
  | 0, _ => 0
  | fuel + 1, i =>
    if slots i = 0 then 0
    else if p (slots i) then slots i else lookup cap slots p fuel ((i + 1) % cap)

/-- Put entry `e` with home slot `h` into the table. -/
def insert (cap : ℕ) (slots : ℕ → ℕ) (h e : ℕ) : ℕ → ℕ :=
  Function.update slots (firstEmpty cap slots cap h) e

/-- The walk from home slot `h` meets `e` before an empty slot. -/
def Placed (cap : ℕ) (slots : ℕ → ℕ) (h e : ℕ) : Prop :=
  ∃ d < cap, slots ((h + d) % cap) = e ∧ ∀ k < d, slots ((h + k) % cap) ≠ 0

/-- The number of slots in use. -/
def occupied (cap : ℕ) (slots : ℕ → ℕ) : ℕ :=
  ((Finset.range cap).filter fun i => slots i ≠ 0).card

variable {cap : ℕ} {slots : ℕ → ℕ} {h e : ℕ}

theorem exists_empty (hocc : occupied cap slots < cap) : ∃ i < cap, slots i = 0 := by
  by_contra hall
  push Not at hall
  have : (Finset.range cap).filter (fun i => slots i ≠ 0) = Finset.range cap :=
    Finset.filter_true_of_mem fun i hi => hall i (Finset.mem_range.mp hi)
  rw [occupied, this, Finset.card_range] at hocc
  exact lt_irrefl _ hocc

/-- Every slot is on the cyclic walk from any home slot. -/
theorem exists_offset {i : ℕ} (hi : i < cap) (h : ℕ) : ∃ d < cap, (h + d) % cap = i := by
  refine ⟨(i + (cap - h % cap)) % cap, Nat.mod_lt _ (by omega), ?_⟩
  have hlt : h % cap < cap := Nat.mod_lt _ (by omega)
  rw [Nat.add_mod, Nat.mod_mod, ← Nat.add_mod]
  have hdecomp : h + (i + (cap - h % cap)) = i + cap + cap * (h / cap) := by
    have := Nat.div_add_mod h cap
    omega
  rw [hdecomp, Nat.add_mul_mod_self_left, Nat.add_mod_right, Nat.mod_eq_of_lt hi]

/-- The first empty slot on the walk from `h`. -/
theorem exists_first (hocc : occupied cap slots < cap) (h : ℕ) :
    ∃ d < cap, slots ((h + d) % cap) = 0 ∧ ∀ k < d, slots ((h + k) % cap) ≠ 0 := by
  have hex : ∃ d, d < cap ∧ slots ((h + d) % cap) = 0 := by
    obtain ⟨i, hi, hs⟩ := exists_empty hocc
    obtain ⟨d, hd, rfl⟩ := exists_offset hi h
    exact ⟨d, hd, hs⟩
  classical
  refine ⟨Nat.find hex, (Nat.find_spec hex).1, (Nat.find_spec hex).2, fun k hk hs => ?_⟩
  exact Nat.find_min hex hk ⟨hk.trans (Nat.find_spec hex).1, hs⟩

theorem firstEmpty_eq {d fuel : ℕ} (hd : slots ((h + d) % cap) = 0)
    (hmin : ∀ k < d, slots ((h + k) % cap) ≠ 0) (hf : d < fuel) (hh : h < cap) :
    firstEmpty cap slots fuel h = (h + d) % cap := by
  induction d generalizing h fuel with
  | zero =>
    obtain ⟨fuel, rfl⟩ : ∃ k, fuel = k + 1 := ⟨fuel - 1, by omega⟩
    have h0 : (h + 0) % cap = h := Nat.mod_eq_of_lt hh
    rw [h0] at hd
    rw [h0, firstEmpty, if_pos hd]
  | succ d ih =>
    obtain ⟨fuel, rfl⟩ : ∃ k, fuel = k + 1 := ⟨fuel - 1, by omega⟩
    have hshift : ∀ k, ((h + 1) % cap + k) % cap = (h + (k + 1)) % cap := by
      intro k
      rw [Nat.mod_add_mod]
      congr 1
      omega
    have h0 : slots h ≠ 0 := by
      have := hmin 0 (by omega)
      rwa [Nat.add_zero, Nat.mod_eq_of_lt hh] at this
    rw [firstEmpty, if_neg h0, ih (by rw [hshift]; exact hd) ?_ (by omega)
      (Nat.mod_lt _ (by omega)), hshift]
    intro k hk
    rw [hshift]
    exact hmin (k + 1) (by omega)

/-- In a table that is not full, the walk of an insertion ends at an empty slot. -/
theorem firstEmpty_spec (hocc : occupied cap slots < cap) (hh : h < cap) :
    ∃ d < cap, firstEmpty cap slots cap h = (h + d) % cap ∧ slots ((h + d) % cap) = 0 ∧
      ∀ k < d, slots ((h + k) % cap) ≠ 0 := by
  obtain ⟨d, hd, hs, hmin⟩ := exists_first hocc h
  exact ⟨d, hd, firstEmpty_eq hs hmin hd hh, hs, hmin⟩

theorem insert_slot_lt (hocc : occupied cap slots < cap) (hh : h < cap) :
    firstEmpty cap slots cap h < cap ∧ slots (firstEmpty cap slots cap h) = 0 := by
  obtain ⟨d, hd, heq, hs, -⟩ := firstEmpty_spec hocc hh
  rw [heq]
  exact ⟨Nat.mod_lt _ (by omega), hs⟩

/-- The inserted entry is met by the walk from its home slot. -/
theorem placed_insert_self (hocc : occupied cap slots < cap) (hh : h < cap) :
    Placed cap (insert cap slots h e) h e := by
  obtain ⟨d, hd, heq, hs, hmin⟩ := firstEmpty_spec hocc hh
  refine ⟨d, hd, by simp [insert, heq], fun k hk => ?_⟩
  have hne : (h + k) % cap ≠ firstEmpty cap slots cap h := by
    rw [heq]
    intro he
    exact hmin k hk (by rw [he]; exact hs)
  rw [insert, Function.update_of_ne hne]
  exact hmin k hk

/-- Filling an empty slot loses no entry. -/
theorem Placed.insert {h' e' : ℕ} (hp : Placed cap slots h' e') (he' : e' ≠ 0) (he : e ≠ 0)
    (hocc : occupied cap slots < cap) (hh : h < cap) :
    Placed cap (insert cap slots h e) h' e' := by
  obtain ⟨-, hs⟩ := insert_slot_lt hocc hh
  obtain ⟨d, hd, hsd, hmin⟩ := hp
  refine ⟨d, hd, ?_, fun k hk => ?_⟩
  · rw [Probing.insert, Function.update_of_ne, hsd]
    intro heq
    rw [heq, hs] at hsd
    exact he' hsd.symm
  · rw [Probing.insert]
    by_cases hk' : (h' + k) % cap = firstEmpty cap slots cap h
    · rw [hk', Function.update_self]
      exact he
    · rw [Function.update_of_ne hk']
      exact hmin k hk

/-- An insertion fills one more slot. -/
theorem occupied_insert (hocc : occupied cap slots < cap) (hh : h < cap) (he : e ≠ 0) :
    occupied cap (insert cap slots h e) = occupied cap slots + 1 := by
  obtain ⟨hlt, hs⟩ := insert_slot_lt hocc hh
  rw [occupied, occupied, ← Finset.card_insert_of_notMem
    (a := firstEmpty cap slots cap h) (by simp [hs])]
  congr 1
  ext i
  rw [Finset.mem_insert, Finset.mem_filter, Finset.mem_filter, Finset.mem_range, insert]
  by_cases hi : i = firstEmpty cap slots cap h
  · rw [hi, Function.update_self]
    simp [he, hlt]
  · rw [Function.update_of_ne hi]
    simp [hi]

/-- A lookup only returns an entry of the table that passes the test. -/
theorem lookup_sound {p : ℕ → Bool} {fuel i : ℕ} (hi : i < cap)
    (hne : lookup cap slots p fuel i ≠ 0) :
    p (lookup cap slots p fuel i) = true ∧ ∃ j < cap, slots j = lookup cap slots p fuel i := by
  induction fuel generalizing i with
  | zero => simp [lookup] at hne
  | succ fuel ih =>
    rw [lookup] at hne ⊢
    by_cases h0 : slots i = 0
    · simp [h0] at hne
    · by_cases hp : p (slots i) = true
      · simp only [h0, hp, if_true, if_false]
        exact ⟨trivial, i, hi, rfl⟩
      · simp only [h0, hp, if_false] at hne ⊢
        exact ih (Nat.mod_lt _ (by omega)) hne

/-- If the walk meets an entry that passes the test, a lookup does not come back empty. -/
theorem lookup_complete {p : ℕ → Bool} {d fuel : ℕ} (hh : h < cap)
    (hs : slots ((h + d) % cap) = e) (hmin : ∀ k < d, slots ((h + k) % cap) ≠ 0)
    (he : e ≠ 0) (hp : p e = true) (hf : d < fuel) : lookup cap slots p fuel h ≠ 0 := by
  induction d generalizing h fuel with
  | zero =>
    obtain ⟨fuel, rfl⟩ : ∃ k, fuel = k + 1 := ⟨fuel - 1, by omega⟩
    rw [Nat.add_zero, Nat.mod_eq_of_lt hh] at hs
    simp [lookup, hs, he, hp]
  | succ d ih =>
    obtain ⟨fuel, rfl⟩ : ∃ k, fuel = k + 1 := ⟨fuel - 1, by omega⟩
    have hshift : ∀ k, ((h + 1) % cap + k) % cap = (h + (k + 1)) % cap := by
      intro k
      rw [Nat.mod_add_mod]
      congr 1
      omega
    have h0 : slots h ≠ 0 := by
      have := hmin 0 (by omega)
      rwa [Nat.add_zero, Nat.mod_eq_of_lt hh] at this
    rw [lookup, if_neg h0]
    by_cases hph : p (slots h) = true
    · rw [if_pos hph]
      exact h0
    · rw [if_neg hph]
      refine ih (Nat.mod_lt _ (by omega)) (by rw [hshift]; exact hs) ?_ (by omega)
      intro k hk
      rw [hshift]
      exact hmin (k + 1) (by omega)

theorem Placed.lookup_ne_zero {p : ℕ → Bool} (hpl : Placed cap slots h e) (hh : h < cap)
    (he : e ≠ 0) (hp : p e = true) : lookup cap slots p cap h ≠ 0 := by
  obtain ⟨d, hd, hs, hmin⟩ := hpl
  exact lookup_complete hh hs hmin he hp hd

theorem occupied_clear : occupied cap (fun _ => 0) = 0 := by simp [occupied]

end Probing
