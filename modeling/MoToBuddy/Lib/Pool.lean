import Mathlib.Data.List.Nodup
import Mathlib.Data.List.Perm.Subperm
import Mathlib.Tactic.Common

/-!
# A pool of slots with a stack of returned ones

Slots are handed out in order; a returned slot is put on a stack and handed out again first.
`Pool.Inv` says that every slot handed out so far is in use or on the stack, and never both.
-/

namespace Slots

/-- The counters of a pool: slots in use, slots there is room for, the next fresh slot, and
the returned slots. -/
structure Pool where
  used : ℕ
  room : ℕ
  fresh : ℕ
  returned : List ℕ

namespace Pool

/-- The next slot. -/
def next (p : Pool) : ℕ := p.returned.headD p.fresh

/-- Hand out the next slot. -/
def take (p : Pool) : Pool :=
  { p with
    used := p.used + 1
    fresh := if p.returned = [] then p.fresh + 1 else p.fresh
    returned := p.returned.tail }

/-- Take slot `i` back. -/
def give (p : Pool) (i : ℕ) : Pool := { p with used := p.used - 1, returned := i :: p.returned }

/-- The slots in `inUse` are those handed out and not returned. -/
structure Inv (inUse : ℕ → Prop) (p : Pool) : Prop where
  nodup : p.returned.Nodup
  returned : ∀ i ∈ p.returned, i < p.fresh
  inUse : ∀ i, inUse i ↔ i < p.fresh ∧ i ∉ p.returned
  count : p.used + p.returned.length = p.fresh
  room : p.fresh ≤ p.room

variable {inUse inUse' : ℕ → Prop} {p : Pool}

theorem Inv.congr (h : p.Inv inUse) (heq : ∀ i, inUse' i ↔ inUse i) : p.Inv inUse' :=
  ⟨h.nodup, h.returned, fun i => (heq i).trans (h.inUse i), h.count, h.room⟩

/-- More room does not matter. -/
theorem Inv.grow (h : p.Inv inUse) {room : ℕ} (hroom : p.room ≤ room) :
    Pool.Inv inUse { p with room := room } :=
  ⟨h.nodup, h.returned, h.inUse, h.count, Nat.le_trans h.room hroom⟩

theorem Inv.lt_room (h : p.Inv inUse) {i : ℕ} (hi : inUse i) : i < p.room :=
  Nat.lt_of_lt_of_le ((h.inUse i).mp hi).1 h.room

/-- A slot in use is not on the stack, so the count is positive. -/
theorem Inv.used_pos (h : p.Inv inUse) {i : ℕ} (hi : inUse i) : 0 < p.used := by
  obtain ⟨hlt, hnot⟩ := (h.inUse i).mp hi
  have hsub : i :: p.returned ⊆ List.range p.fresh := by
    intro j hj
    rcases List.mem_cons.mp hj with rfl | hj
    · exact List.mem_range.mpr hlt
    · exact List.mem_range.mpr (h.returned j hj)
  have hlen := ((List.nodup_cons.mpr ⟨hnot, h.nodup⟩).subperm hsub).length_le
  have hcount := h.count
  rw [List.length_cons, List.length_range] at hlen
  omega

/-- The next slot is not in use and inside the room, if not all of it is used. -/
theorem Inv.next (h : p.Inv inUse) (hroom : p.used < p.room) :
    ¬ inUse p.next ∧ p.next < p.room := by
  have hcount := h.count
  unfold Pool.next
  cases hr : p.returned with
  | nil =>
    rw [hr, List.length_nil] at hcount
    refine ⟨fun hin => ?_, ?_⟩
    · have hlt := ((h.inUse _).mp hin).1
      exact absurd hlt (Nat.lt_irrefl _)
    · show p.fresh < p.room
      omega
  | cons i rest =>
    have hi : i ∈ p.returned := by rw [hr]; exact List.mem_cons_self
    refine ⟨fun hin => ((h.inUse i).mp hin).2 hi, ?_⟩
    exact Nat.lt_of_lt_of_le (h.returned i hi) h.room

/-- Handing out the next slot adds it to those in use. -/
theorem Inv.take (h : p.Inv inUse) (hroom : p.used < p.room)
    (hin : ∀ i, inUse' i ↔ inUse i ∨ i = p.next) : p.take.Inv inUse' := by
  have hcount := h.count
  cases hr : p.returned with
  | nil =>
    have hnext : p.next = p.fresh := by rw [Pool.next, hr]; rfl
    have htake : p.take = ⟨p.used + 1, p.room, p.fresh + 1, []⟩ := by
      rw [Pool.take, hr]
      rfl
    rw [hr, List.length_nil] at hcount
    rw [htake]
    refine ⟨List.nodup_nil, fun i hi => absurd hi List.not_mem_nil, fun i => ?_, ?_, ?_⟩
    · rw [hin i, h.inUse i, hr, hnext]
      constructor
      · rintro (⟨hlt, -⟩ | rfl)
        · exact ⟨Nat.lt_succ_of_lt hlt, List.not_mem_nil⟩
        · exact ⟨Nat.lt_succ_self _, List.not_mem_nil⟩
      · rintro ⟨hlt, hnot⟩
        rcases Nat.lt_succ_iff_lt_or_eq.mp hlt with hlt | heq
        · exact Or.inl ⟨hlt, hnot⟩
        · exact Or.inr heq
    · show p.used + 1 + 0 = p.fresh + 1
      omega
    · show p.fresh + 1 ≤ p.room
      omega
  | cons i rest =>
    have hnext : p.next = i := by rw [Pool.next, hr]; rfl
    have htake : p.take = ⟨p.used + 1, p.room, p.fresh, rest⟩ := by
      rw [Pool.take, hr]
      rfl
    have hnd := h.nodup
    rw [hr, List.nodup_cons] at hnd
    rw [hr, List.length_cons] at hcount
    rw [htake]
    refine ⟨hnd.2, fun j hj => h.returned j ?_, fun j => ?_, ?_, h.room⟩
    · rw [hr]
      exact List.mem_cons_of_mem _ hj
    · rw [hin j, h.inUse j, hr, hnext, List.mem_cons, not_or]
      constructor
      · rintro (⟨hlt, -, hnot⟩ | rfl)
        · exact ⟨hlt, hnot⟩
        · exact ⟨h.returned j (by rw [hr]; exact List.mem_cons_self), hnd.1⟩
      · rintro ⟨hlt, hnot⟩
        by_cases hj : j = i
        · exact Or.inr hj
        · exact Or.inl ⟨hlt, hj, hnot⟩
    · show p.used + 1 + rest.length = p.fresh
      omega

/-- A slot in use may be returned. -/
theorem Inv.give (h : p.Inv inUse) {i : ℕ} (hi : inUse i)
    (hin : ∀ j, inUse' j ↔ inUse j ∧ j ≠ i) : (p.give i).Inv inUse' := by
  obtain ⟨hlt, hnot⟩ := (h.inUse i).mp hi
  have hpos := h.used_pos hi
  have hcount := h.count
  refine ⟨List.nodup_cons.mpr ⟨hnot, h.nodup⟩, fun j hj => ?_, fun j => ?_, ?_, h.room⟩
  · rcases List.mem_cons.mp hj with rfl | hj
    · exact hlt
    · exact h.returned j hj
  · rw [hin j, h.inUse j]
    show _ ↔ j < p.fresh ∧ j ∉ i :: p.returned
    rw [List.mem_cons, not_or]
    tauto
  · show p.used - 1 + (i :: p.returned).length = p.fresh
    rw [List.length_cons]
    omega

end Pool

end Slots
