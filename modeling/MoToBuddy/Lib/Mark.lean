import Mathlib.Data.Finset.Card
import Mathlib.Data.Finset.Range
import Mathlib.Logic.Function.Basic
import Mathlib.Order.Basic
import Mathlib.Tactic.Common

/-!
# Marking a graph depth first

The marker of a mark-and-sweep collector, over a graph given by the nodes that are in use
(`live`) and the list of children of a node (`succ`). `dfs` recurses before it returns,
so its depth is bounded by the number of nodes still to be marked; with that much fuel it
marks exactly the nodes reachable over live nodes (`dfs_spec`, `markAll_spec`).
-/

namespace Marking

variable (live : ℕ → Bool) (succ : ℕ → List ℕ)

/-- `n` is reachable from `r` along live nodes (both ends live). -/
inductive Reach (r : ℕ) : ℕ → Prop
  | refl : live r = true → Reach r r
  | step {n m : ℕ} : Reach r n → m ∈ succ n → live m = true → Reach r m

variable {live succ}

theorem Reach.live_right {r n : ℕ} (h : Reach live succ r n) : live n = true := by
  cases h with
  | refl h => exact h
  | step _ _ h => exact h

theorem Reach.live_left {r n : ℕ} (h : Reach live succ r n) : live r = true := by
  induction h with
  | refl h => exact h
  | step _ _ _ ih => exact ih

theorem Reach.trans {r n m : ℕ} (h : Reach live succ r n) (h' : Reach live succ n m) :
    Reach live succ r m := by
  induction h' with
  | refl _ => exact h
  | step _ hm hl ih => exact ih.step hm hl

theorem Reach.child {r m n : ℕ} (hr : live r = true) (hm : m ∈ succ r)
    (h : Reach live succ m n) : Reach live succ r n :=
  ((Reach.refl hr).step hm h.live_left).trans h

/-- A node reached from `r` is `r` or reached from a child of `r`. -/
theorem Reach.cases_head {r n : ℕ} (h : Reach live succ r n) :
    n = r ∨ ∃ m ∈ succ r, Reach live succ m n := by
  induction h with
  | refl _ => exact Or.inl rfl
  | @step n m _ hm hl ih =>
    right
    rcases ih with rfl | ⟨c, hc, hcn⟩
    · exact ⟨m, hm, .refl hl⟩
    · exact ⟨c, hc, hcn.step hm hl⟩

/-- Reachability only depends on the graph at the nodes that are reached. -/
theorem Reach.congr {live' : ℕ → Bool} {succ' : ℕ → List ℕ} {r n : ℕ}
    (h : Reach live succ r n)
    (heq : ∀ m, Reach live succ r m → live' m = true ∧ succ' m = succ m) :
    Reach live' succ' r n := by
  induction h with
  | refl hl => exact .refl (heq r (.refl hl)).1
  | @step n m hn hm hl ih =>
    refine ih.step ?_ (heq m (hn.step hm hl)).1
    rw [(heq n hn).2]
    exact hm

variable (live succ)

/-- `mark(i)`: a free or marked node is left alone, any other one is marked and its
children follow. -/
def dfs : ℕ → ℕ → (ℕ → Bool) → ℕ → Bool
  | 0, _, M => M
  | fuel + 1, i, M =>
    if !live i || M i then M
    else (succ i).foldl (fun M j => dfs fuel j M) (Function.update M i true)

/-- Marking from several roots, one after the other. -/
def markAll (fuel : ℕ) (roots : List ℕ) (M : ℕ → Bool) : ℕ → Bool :=
  roots.foldl (fun M r => dfs live succ fuel r M) M

/-- What is marked stays marked. -/
theorem dfs_mono (fuel i : ℕ) (M : ℕ → Bool) (n : ℕ) (h : M n = true) :
    dfs live succ fuel i M n = true := by
  induction fuel generalizing i M with
  | zero => exact h
  | succ fuel ih =>
    have hfoldl : ∀ (js : List ℕ) (M : ℕ → Bool), M n = true →
        js.foldl (fun M j => dfs live succ fuel j M) M n = true := by
      intro js
      induction js with
      | nil => exact fun _ h => h
      | cons j js ihj => exact fun M h => ihj _ (ih j M h)
    rw [dfs]
    split_ifs
    · exact h
    · apply hfoldl
      by_cases hn : n = i
      · rw [hn, Function.update_self]
      · rw [Function.update_of_ne hn, h]

theorem markAll_mono (fuel : ℕ) (roots : List ℕ) (M : ℕ → Bool) (n : ℕ) (h : M n = true) :
    markAll live succ fuel roots M n = true := by
  induction roots generalizing M with
  | nil => exact h
  | cons r roots ih => exact ih _ (dfs_mono live succ fuel r M n h)

/-- A live root is marked, whatever the graph. -/
theorem markAll_root {fuel r : ℕ} {roots : List ℕ} (hr : r ∈ roots) (hl : live r = true)
    (M : ℕ → Bool) : markAll live succ (fuel + 1) roots M r = true := by
  induction roots generalizing M with
  | nil => exact absurd hr List.not_mem_nil
  | cons j roots ih =>
    rcases List.mem_cons.mp hr with rfl | hr
    · apply markAll_mono live succ (fuel + 1) roots (dfs live succ (fuel + 1) r M)
      rw [dfs, hl]
      cases hM : M r with
      | true => exact hM
      | false =>
        have hset : Function.update M r true r = true := Function.update_self ..
        exact markAll_mono live succ fuel (succ r) _ r hset
    · exact ih hr _

/-- The number of live nodes below `size` that are still unmarked. -/
def unmarked (size : ℕ) (M : ℕ → Bool) : ℕ :=
  ((Finset.range size).filter fun n => live n = true ∧ M n = false).card

/-- What marking from the nodes in `rs` does to the set `M` of marked nodes. -/
structure Marks (rs : List ℕ) (M M' : ℕ → Bool) : Prop where
  mono : ∀ n, M n = true → M' n = true
  roots : ∀ r ∈ rs, live r = true → M' r = true
  closed : ∀ n, M' n = true → M n = false →
    live n = true ∧ ∀ m ∈ succ n, live m = true → M' m = true
  sound : ∀ n, M' n = true → M n = false → ∃ r ∈ rs, Reach live succ r n

variable {live succ}

theorem unmarked_anti {size : ℕ} {M M' : ℕ → Bool} (h : ∀ n, M n = true → M' n = true) :
    unmarked live size M' ≤ unmarked live size M := by
  refine Finset.card_le_card fun n hn => ?_
  rw [Finset.mem_filter] at hn ⊢
  refine ⟨hn.1, hn.2.1, ?_⟩
  by_contra hM
  rw [h n (by simpa using hM)] at hn
  simp at hn

theorem unmarked_update_lt {size : ℕ} {M : ℕ → Bool} {i : ℕ} (hi : i < size)
    (hl : live i = true) (hM : M i = false) :
    unmarked live size (Function.update M i true) < unmarked live size M := by
  refine Finset.card_lt_card ⟨fun n hn => ?_, fun hsub => ?_⟩
  · rw [Finset.mem_filter] at hn ⊢
    obtain ⟨hn1, hn2, hn3⟩ := hn
    refine ⟨hn1, hn2, ?_⟩
    by_cases hni : n = i
    · subst hni; exact hM
    · rwa [Function.update_of_ne hni] at hn3
  · have hmem := hsub (Finset.mem_filter.mpr ⟨Finset.mem_range.mpr hi, hl, hM⟩)
    simp at hmem

theorem Marks.refl (M : ℕ → Bool) : Marks live succ [] M M :=
  ⟨fun _ h => h, by simp, fun n h h' => by simp [h] at h', fun n h h' => by simp [h] at h'⟩

theorem Marks.append {rs rs' : List ℕ} {M M' M'' : ℕ → Bool} (h : Marks live succ rs M M')
    (h' : Marks live succ rs' M' M'') : Marks live succ (rs ++ rs') M M'' := by
  refine ⟨fun n hn => h'.mono n (h.mono n hn), fun r hr hl => ?_, fun n hn hM => ?_,
    fun n hn hM => ?_⟩
  · rcases List.mem_append.mp hr with hr | hr
    · exact h'.mono r (h.roots r hr hl)
    · exact h'.roots r hr hl
  · by_cases hM' : M' n = true
    · obtain ⟨hl, hc⟩ := h.closed n hM' hM
      exact ⟨hl, fun m hm hlm => h'.mono m (hc m hm hlm)⟩
    · exact h'.closed n hn (by simpa using hM')
  · by_cases hM' : M' n = true
    · obtain ⟨r, hr, hrn⟩ := h.sound n hM' hM
      exact ⟨r, by simp [hr], hrn⟩
    · obtain ⟨r, hr, hrn⟩ := h'.sound n hn (by simpa using hM')
      exact ⟨r, by simp [hr], hrn⟩

/-- Marking several nodes in turn, given what marking one of them does. -/
theorem Marks.foldl {size fuel : ℕ} {f : ℕ → (ℕ → Bool) → ℕ → Bool} (rs : List ℕ)
    (hf : ∀ j ∈ rs, ∀ M, unmarked live size M < fuel → Marks live succ [j] M (f j M))
    (M : ℕ → Bool) (hM : unmarked live size M < fuel) :
    Marks live succ rs M (rs.foldl (fun M j => f j M) M) := by
  induction rs generalizing M with
  | nil => exact Marks.refl M
  | cons j rs ih =>
    have hj := hf j (by simp) M hM
    have hlt : unmarked live size (f j M) < fuel := lt_of_le_of_lt (unmarked_anti hj.mono) hM
    exact hj.append (ih (fun j hj => hf j (by simp [hj])) (f j M) hlt)

/-- Marking a fresh node and then its children marks the node's whole cone. -/
theorem Marks.node {i : ℕ} {M M' : ℕ → Bool} (hl : live i = true) (hM : M i = false)
    (h : Marks live succ (succ i) (Function.update M i true) M') :
    Marks live succ [i] M M' := by
  have hMi : M' i = true := h.mono i (by simp)
  have hup : ∀ n, n ≠ i → Function.update M i true n = M n := fun n hn =>
    Function.update_of_ne hn _ _
  refine ⟨fun n hn => ?_, fun r hr _ => ?_, fun n hn hMn => ?_, fun n hn hMn => ?_⟩
  · by_cases hni : n = i
    · rw [hni]; exact hMi
    · exact h.mono n (by rw [hup n hni]; exact hn)
  · rw [List.mem_singleton.mp hr]; exact hMi
  · by_cases hni : n = i
    · subst hni
      exact ⟨hl, fun m hm hlm => h.roots m hm hlm⟩
    · exact h.closed n hn (by rw [hup n hni]; exact hMn)
  · refine ⟨i, by simp, ?_⟩
    by_cases hni : n = i
    · rw [hni]; exact .refl hl
    · obtain ⟨r, hr, hrn⟩ := h.sound n hn (by rw [hup n hni]; exact hMn)
      exact hrn.child hl hr

/-- With fuel for every unmarked node, `dfs` marks the cone of its start node. -/
theorem dfs_spec {size : ℕ} (hsize : ∀ n, live n = true → n < size) (fuel i : ℕ)
    (M : ℕ → Bool) (hf : unmarked live size M < fuel) :
    Marks live succ [i] M (dfs live succ fuel i M) := by
  induction fuel generalizing i M with
  | zero => omega
  | succ fuel ih =>
    rw [dfs]
    by_cases hc : (!live i || M i) = true
    · rw [if_pos hc]
      refine ⟨fun _ h => h, fun r hr hl => ?_, fun n h h' => by simp [h] at h',
        fun n h h' => by simp [h] at h'⟩
      rw [List.mem_singleton.mp hr] at hl ⊢
      simpa [hl] using hc
    · rw [if_neg hc]
      obtain ⟨hl, hM⟩ : live i = true ∧ M i = false := by simpa using hc
      have hlt := unmarked_update_lt (hsize i hl) hl hM
      exact Marks.node hl hM (Marks.foldl _ (fun j _ M hM => ih j M hM) _ (by omega))

theorem markAll_marks {size fuel : ℕ} (hsize : ∀ n, live n = true → n < size)
    (roots : List ℕ) (M : ℕ → Bool) (hf : unmarked live size M < fuel) :
    Marks live succ roots M (markAll live succ fuel roots M) :=
  Marks.foldl roots (fun j _ M hM => dfs_spec hsize fuel j M hM) M hf

theorem unmarked_le (size : ℕ) (M : ℕ → Bool) : unmarked live size M ≤ size := by
  simpa [unmarked] using Finset.card_filter_le (Finset.range size) _

/-- From an unmarked graph, exactly the reachable nodes end up marked. -/
theorem Marks.iff_reach {roots : List ℕ} {M M' : ℕ → Bool} (h : Marks live succ roots M M')
    (hM : ∀ n, M n = false) (n : ℕ) :
    M' n = true ↔ ∃ r ∈ roots, Reach live succ r n := by
  refine ⟨fun hn => h.sound n hn (hM n), ?_⟩
  rintro ⟨r, hr, hrn⟩
  induction hrn with
  | refl hl => exact h.roots r hr hl
  | @step n m _ hm hl ih => exact (h.closed n ih (hM n)).2 m hm hl

end Marking
