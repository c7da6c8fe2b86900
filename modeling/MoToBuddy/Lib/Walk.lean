import Mathlib.Algebra.BigOperators.Group.Finset.Basic
import Mathlib.Algebra.Order.BigOperators.Group.Finset
import MoToBuddy.Lib.Mark

/-!
# A marker that reads its graph from a table

The depth-first marker over a table of `size` slots whose fields are numbers: a number below
`base` is no slot, and a number from `size` on is outside the table, so that the walk has no
result. The walk adds up the weights of the nodes it marks and notes the slots that it reads.

* `walk_spec`: what a walk that returns has marked, added up and read.
* `walk_returns`: a walk over a closed set of slots returns.
-/

namespace Marking

open Finset

/-- Where a walk stands: the nodes that are done, the sum, the slots read, the last one first. -/
structure Walk where
  done : ℕ → Bool
  sum : ℕ
  visits : List ℕ

variable (base size : ℕ) (skip : ℕ → Bool) (next : ℕ → List ℤ) (weight : ℕ → ℕ)

def Walk.visit (w : Walk) (n : ℕ) : Walk := { w with visits := n :: w.visits }

def Walk.mark (w : Walk) (n weight : ℕ) : Walk :=
  { w with
    done := Function.update w.done n true
    sum := w.sum + weight }

def walk : ℕ → ℤ → Walk → Option Walk
  | 0, _, _ => none
  | fuel + 1, i, w =>
    if i < base then some w
    else if i ≥ size then none
    else if w.done i.toNat || skip i.toNat then some (w.visit i.toNat)
    else (next i.toNat).foldlM (fun w j => walk fuel j w)
      ((w.visit i.toNat).mark i.toNat (weight i.toNat))

/-- From several roots, one after the other. -/
def walkAll (fuel : ℕ) (roots : List ℤ) (w : Walk) : Option Walk :=
  roots.foldlM (fun w j => walk base size skip next weight fuel j w) w

/-- The weight of the nodes that are done. -/
def total (size : ℕ) (weight : ℕ → ℕ) (M : ℕ → Bool) : ℕ :=
  ∑ n ∈ (range size).filter fun n => M n = true, weight n

variable {base size skip next weight}

theorem total_update (weight : ℕ → ℕ) {M : ℕ → Bool} {n : ℕ} (hn : n < size) (hM : M n = false) :
    total size weight (Function.update M n true) = total size weight M + weight n := by
  have hset : ((range size).filter fun m => Function.update M n true m = true) =
      insert n ((range size).filter fun m => M m = true) := by
    ext m
    simp only [mem_filter, mem_range, mem_insert, Function.update_apply]
    by_cases hm : m = n
    · simp [hm, hn]
    · simp [hm]
  rw [total, hset, sum_insert (by simp [hM]), total, add_comm]

/-- A set that the walk does not leave: its slots are in the table and lead to its slots. -/
structure ClosedSet (base size : ℕ) (next : ℕ → List ℤ) (C : ℕ → Prop) : Prop where
  lt : ∀ n, C n → n < size
  next : ∀ n, C n → ∀ i ∈ next n, i < base ∨ C i.toNat

section Spec

variable {C : ℕ → Prop} {live : ℕ → Bool}

/-- What a walk has done: `live` is the graph that it marks, `C` the slots it may read. -/
structure Walked (size : ℕ) (next : ℕ → List ℤ) (weight : ℕ → ℕ) (base : ℕ) (live : ℕ → Bool)
    (C : ℕ → Prop) (is : List ℤ) (w w' : Walk) : Prop where
  marks : Marks live (fun n => (next n).map Int.toNat) (is.map Int.toNat) w.done w'.done
  sum : w'.sum + total size weight w.done = w.sum + total size weight w'.done
  roots : ∀ i ∈ is, (base : ℤ) ≤ i → i.toNat ∈ w'.visits
  reads : ∀ n, w'.done n = true → w.done n = false → ∀ i ∈ next n, (base : ℤ) ≤ i →
    i.toNat ∈ w'.visits
  visits : ∀ v ∈ w.visits, v ∈ w'.visits
  only : ∀ v ∈ w'.visits, v ∈ w.visits ∨ C v

theorem Walked.refl (w : Walk) : Walked size next weight base live C [] w w := by
  refine ⟨Marks.refl _, rfl, fun i hi => absurd hi List.not_mem_nil, fun n h h' => ?_,
    fun _ h => h, fun _ h => Or.inl h⟩
  rw [h] at h'
  exact absurd h' (by decide)

theorem Walked.append {is is' : List ℤ} {w w' w'' : Walk}
    (h : Walked size next weight base live C is w w')
    (h' : Walked size next weight base live C is' w' w'') :
    Walked size next weight base live C (is ++ is') w w'' := by
  refine ⟨?_, ?_, fun i hi hb => ?_, fun n hn hM i hi hb => ?_, fun v hv => ?_, fun v hv => ?_⟩
  · rw [List.map_append]
    exact h.marks.append h'.marks
  · have := h.sum
    have := h'.sum
    omega
  · rcases List.mem_append.mp hi with hi | hi
    · exact h'.visits _ (h.roots i hi hb)
    · exact h'.roots i hi hb
  · cases hM' : w'.done n with
    | true => exact h'.visits _ (h.reads n hM' hM i hi hb)
    | false => exact h'.reads n hn hM' i hi hb
  · exact h'.visits v (h.visits v hv)
  · rcases h'.only v hv with hv | hv
    · exact h.only v hv
    · exact Or.inr hv

/-- Walking from several slots in turn. -/
theorem Walked.foldlM {f : Walk → ℤ → Option Walk} (is : List ℤ)
    (hf : ∀ j ∈ is, ∀ w w', f w j = some w' → Walked size next weight base live C [j] w w')
    {w w' : Walk} (h : is.foldlM f w = some w') :
    Walked size next weight base live C is w w' := by
  induction is generalizing w with
  | nil =>
    rw [List.foldlM_nil] at h
    obtain rfl := Option.some.inj h
    exact Walked.refl w
  | cons j is ih =>
    rw [List.foldlM_cons] at h
    obtain ⟨w₁, h₁, h₂⟩ := Option.bind_eq_some_iff.mp h
    exact (hf j List.mem_cons_self w w₁ h₁).append
      (ih (fun j hj => hf j (List.mem_cons_of_mem _ hj)) h₂)

/-- A walk that returns has marked what is reachable over live nodes. -/
theorem walk_spec (hpos : 0 < base) (hbase : ∀ n, live n = true → base ≤ n)
    (hskip : ∀ n, C n → base ≤ n → n < size → skip n = !live n)
    (hnext : ∀ n, C n → live n = true → ∀ i ∈ next n, i < base ∨ C i.toNat) (fuel : ℕ) (i : ℤ)
    (hi : i < base ∨ C i.toNat) (w w' : Walk)
    (h : walk base size skip next weight fuel i w = some w') :
    Walked size next weight base live C [i] w w' := by
  induction fuel generalizing i w w' with
  | zero => exact nomatch h
  | succ fuel ih =>
    rw [walk] at h
    split at h
    · -- no slot
      rename_i hlt
      obtain rfl := Option.some.inj h
      have hdead : live i.toNat = false := by
        rw [Bool.eq_false_iff]
        intro hl
        have := hbase _ hl
        omega
      refine ⟨⟨fun _ h => h, fun r hr hl => ?_, fun n h h' => ?_, fun n h h' => ?_⟩, rfl,
        fun j hj hb => ?_, fun n h h' => ?_, fun _ h => h, fun _ h => Or.inl h⟩
      · rw [List.map_singleton, List.mem_singleton] at hr
        rw [hr, hdead] at hl
        exact absurd hl (by decide)
      · rw [h] at h'
        exact absurd h' (by decide)
      · rw [h] at h'
        exact absurd h' (by decide)
      · rw [List.mem_singleton] at hj
        omega
      · rw [h] at h'
        exact absurd h' (by decide)
    · split at h
      · exact nomatch h
      · rename_i hb hsz
        have hC : C i.toNat := hi.resolve_left hb
        have hskip' := hskip i.toNat hC (by omega) (by omega)
        split at h
        · -- done or free already
          rename_i hc
          obtain rfl := Option.some.inj h
          refine ⟨⟨fun _ h => h, fun r hr hl => ?_, fun n h h' => ?_, fun n h h' => ?_⟩, rfl,
            fun j hj _ => ?_, fun n h h' => ?_, fun _ h => List.mem_cons_of_mem _ h,
            fun v hv => ?_⟩
          · rw [List.map_singleton, List.mem_singleton] at hr
            rw [hr] at hl ⊢
            rw [hskip', hl] at hc
            simpa [Walk.visit] using hc
          · rw [show (w.visit i.toNat).done n = w.done n from rfl, h'] at h
            exact absurd h (by decide)
          · rw [show (w.visit i.toNat).done n = w.done n from rfl, h'] at h
            exact absurd h (by decide)
          · rw [List.mem_singleton.mp hj]
            exact List.mem_cons_self
          · rw [show (w.visit i.toNat).done n = w.done n from rfl, h'] at h
            exact absurd h (by decide)
          · rcases List.mem_cons.mp hv with rfl | hv
            · exact Or.inr hC
            · exact Or.inl hv
        · -- a fresh node and what follows it
          rename_i hc
          rw [Bool.or_eq_true, not_or, Bool.not_eq_true, hskip'] at hc
          obtain ⟨hdone, hl⟩ := hc
          have hlive : live i.toNat = true := by simpa using hl
          have hrest : Walked size next weight base live C (next i.toNat)
              ((w.visit i.toNat).mark i.toNat (weight i.toNat)) w' :=
            Walked.foldlM _ (fun j hj w w' h => ih j (hnext _ hC hlive j hj) w w' h) h
          have hup : ∀ n, n ≠ i.toNat → Function.update w.done i.toNat true n = w.done n :=
            fun n hn => Function.update_of_ne hn _ _
          refine ⟨?_, ?_, fun j hj _ => ?_, fun n hn hM j hj hb' => ?_, fun v hv => ?_,
            fun v hv => ?_⟩
          · exact Marks.node hlive hdone hrest.marks
          · have hsum := hrest.sum
            have htotal := total_update weight (show i.toNat < size by omega) hdone
            simp only [Walk.mark, Walk.visit] at hsum
            omega
          · rw [List.mem_singleton.mp hj]
            exact hrest.visits _ List.mem_cons_self
          · by_cases hni : n = i.toNat
            · subst hni
              exact hrest.roots j hj hb'
            · exact hrest.reads n hn ((hup n hni).trans hM) j hj hb'
          · exact hrest.visits v (List.mem_cons_of_mem _ hv)
          · rcases hrest.only v hv with hv | hv
            · rcases List.mem_cons.mp hv with rfl | hv
              · exact Or.inr hC
              · exact Or.inl hv
            · exact Or.inr hv

/-- Walks from slots of a closed set return, given that one of them does. -/
theorem foldlM_returns {f : Walk → ℤ → Option Walk} {I : Walk → Prop} (is : List ℤ)
    (hf : ∀ j ∈ is, ∀ w, I w → ∃ w', f w j = some w' ∧ I w') (w : Walk) (hw : I w) :
    ∃ w', is.foldlM f w = some w' ∧ I w' := by
  induction is generalizing w with
  | nil => exact ⟨w, rfl, hw⟩
  | cons j is ih =>
    obtain ⟨w₁, h₁, hI⟩ := hf j List.mem_cons_self w hw
    obtain ⟨w₂, h₂, hI₂⟩ := ih (fun j hj => hf j (List.mem_cons_of_mem _ hj)) w₁ hI
    exact ⟨w₂, by rw [List.foldlM_cons, h₁]; exact h₂, hI₂⟩

/-- Over a closed set a walk returns, with fuel for every node that is not done. -/
theorem walk_returns (hC : ClosedSet base size next C)
    (hskip : ∀ n, C n → base ≤ n → skip n = !live n) (fuel : ℕ) (i : ℤ)
    (hi : i < base ∨ C i.toNat) (w : Walk) (hf : unmarked live size w.done < fuel) :
    ∃ w', walk base size skip next weight fuel i w = some w' ∧
      ∀ n, w.done n = true → w'.done n = true := by
  induction fuel generalizing i w with
  | zero => omega
  | succ fuel ih =>
    rw [walk]
    by_cases hb : i < base
    · rw [if_pos hb]
      exact ⟨w, rfl, fun _ h => h⟩
    · have hCi : C i.toNat := hi.resolve_left hb
      have hsz := hC.lt _ hCi
      rw [if_neg hb, if_neg (by omega)]
      split
      · exact ⟨_, rfl, fun _ h => h⟩
      · rename_i hc
        rw [Bool.or_eq_true, not_or, Bool.not_eq_true, hskip _ hCi (by omega)] at hc
        obtain ⟨hdone, hl⟩ := hc
        have hlt := unmarked_update_lt hsz (by simpa using hl) hdone
        set w₀ := (w.visit i.toNat).mark i.toNat (weight i.toNat) with hw₀
        obtain ⟨w', h', hI, hmono⟩ := foldlM_returns
          (I := fun w' => unmarked live size w'.done < fuel ∧
            ∀ n, w₀.done n = true → w'.done n = true) (next i.toNat)
          (fun j hj w' ⟨hf', hm'⟩ => by
            obtain ⟨w'', h'', hm''⟩ := ih j (hC.next _ hCi j hj) w' hf'
            exact ⟨w'', h'', (unmarked_anti hm'').trans_lt hf', fun n hn => hm'' n (hm' n hn)⟩)
          w₀ ⟨by simp only [hw₀, Walk.mark, Walk.visit]; omega, fun _ h => h⟩
        refine ⟨w', h', fun n hn => hmono n ?_⟩
        simp only [hw₀, Walk.mark, Walk.visit, Function.update_apply]
        split
        · rfl
        · exact hn

/-- The same for several roots. -/
theorem walkAll_returns (hC : ClosedSet base size next C)
    (hskip : ∀ n, C n → base ≤ n → skip n = !live n) (fuel : ℕ) (roots : List ℤ)
    (hroots : ∀ i ∈ roots, i < base ∨ C i.toNat) (w : Walk)
    (hf : unmarked live size w.done < fuel) :
    ∃ w', walkAll base size skip next weight fuel roots w = some w' := by
  obtain ⟨w', h, -⟩ := foldlM_returns (I := fun w => unmarked live size w.done < fuel) roots
    (fun j hj w hf' => by
      obtain ⟨w', h', hm⟩ : ∃ w', walk base size skip next weight fuel j w = some w' ∧
          ∀ n, w.done n = true → w'.done n = true :=
        walk_returns hC hskip fuel j (hroots j hj) w hf'
      exact ⟨w', h', (unmarked_anti hm).trans_lt hf'⟩) w hf
  exact ⟨w', h⟩

theorem walkAll_spec (hpos : 0 < base) (hbase : ∀ n, live n = true → base ≤ n)
    (hskip : ∀ n, C n → base ≤ n → n < size → skip n = !live n)
    (hnext : ∀ n, C n → live n = true → ∀ i ∈ next n, i < base ∨ C i.toNat) (fuel : ℕ)
    (roots : List ℤ) (hroots : ∀ i ∈ roots, i < base ∨ C i.toNat) (w w' : Walk)
    (h : walkAll base size skip next weight fuel roots w = some w') :
    Walked size next weight base live C roots w w' :=
  Walked.foldlM roots (fun j hj w w' h =>
    walk_spec hpos hbase hskip hnext fuel j (hroots j hj) w w' h) h

end Spec

end Marking
