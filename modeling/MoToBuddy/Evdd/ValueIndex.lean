import MoToBuddy.Evdd.Value

/-!
# The probe index of the intern table

`IdxInv V S` says that the index of `V` is at most half full and that probing from its
home slot finds every row in `S`. Putting a row into the index (with the growth this may
cause) and rebuilding the index establish it for the rows concerned.
-/

namespace MoToBuddy.Evdd

open CountedLoop Probing

variable {P : Type*}

/-- The index is consistent with its count, at most half full, and finds the rows of `S`. -/
structure IdxInv (V : ValueTable P) (S : ℕ → Prop) : Prop where
  occ : occupied V.idxCap V.idx = V.idxCnt
  load : 2 * V.idxCnt ≤ V.idxCap
  placed : ∀ i, S i → i ≠ 0 ∧ Placed V.idxCap V.idx (rowHome V V.idxCap i) i

theorem rowHome_lt (V : ValueTable P) {c : ℕ} (hcap : 0 < c) (i : ℕ) :
    rowHome V c i < c := Nat.mod_lt _ hcap

/-- The index only looks at the hashes and types of the rows. -/
theorem IdxInv.congr {V V' : ValueTable P} {S S' : ℕ → Prop} (h : IdxInv V S)
    (hidx : V'.idx = V.idx) (hcap : V'.idxCap = V.idxCap) (hcnt : V'.idxCnt = V.idxCnt)
    (hrow : ∀ i, S' i → S i ∧ (V'.evddValues i).hash = (V.evddValues i).hash ∧
      (V'.evddValues i).type = (V.evddValues i).type) : IdxInv V' S' := by
  refine ⟨by rw [hidx, hcap, hcnt]; exact h.occ, by rw [hcap, hcnt]; exact h.load, fun i hi => ?_⟩
  obtain ⟨hS, hh, ht⟩ := hrow i hi
  have heq : rowHome V' V'.idxCap i = rowHome V V.idxCap i := by
    rw [rowHome, rowHome, hh, ht, hcap]
  rw [heq, hidx, hcap]
  exact h.placed i hS

/-- The number of nonempty slots below `n`. -/
theorem occupied_succ (slots : ℕ → ℕ) (n : ℕ) :
    occupied (n + 1) slots = occupied n slots + if slots n = 0 then 0 else 1 := by
  rw [occupied, occupied, Finset.range_add_one, Finset.filter_insert]
  by_cases h : slots n = 0
  · simp [h]
  · rw [if_pos h, Finset.card_insert_of_notMem (by simp), if_neg h]

/-- Moving the entries to a larger table keeps all of them within reach. -/
theorem evddValueIdxGrow_inv {V : ValueTable P} {S : ℕ → Prop} (h : IdxInv V S) :
    IdxInv (evddValueIdxGrow V) S ∧
      2 * ((evddValueIdxGrow V).idxCnt + 1) ≤ (evddValueIdxGrow V).idxCap := by
  set newCap := if V.idxCap = 0 then 1024 else V.idxCap * 2 with hnew
  have hcap : V.idxCap < newCap ∧ 2 * (V.idxCnt + 1) ≤ newCap := by
    have := h.load
    rw [hnew]
    split <;> omega
  have hloop := forUp_induct (a := 0) (k := V.idxCap)
    (f := fun j grown => if V.idx j = 0 then grown
      else Probing.insert newCap grown (rowHome V newCap (V.idx j)) (V.idx j))
    (s := fun _ => 0)
    (fun n grown => occupied newCap grown = occupied n V.idx ∧
      ∀ j < n, V.idx j ≠ 0 → Placed newCap grown (rowHome V newCap (V.idx j)) (V.idx j))
    ⟨by simp [occupied], by simp⟩ ?_
  · rw [Nat.zero_add] at hloop
    refine ⟨⟨hloop.1.trans h.occ, show 2 * V.idxCnt ≤ newCap by omega, fun i hi => ?_⟩, hcap.2⟩
    obtain ⟨hi0, d, hd, hs, -⟩ := h.placed i hi
    refine ⟨hi0, ?_⟩
    have := hloop.2 _ (Nat.mod_lt (rowHome V V.idxCap i + d) (by omega)) (by rw [hs]; exact hi0)
    rwa [hs] at this
  · rintro n grown - hn ⟨hocc, hpl⟩
    rw [Nat.zero_add] at hn
    by_cases h0 : V.idx n = 0
    · simp only [h0, if_true]
      refine ⟨by rw [hocc, occupied_succ, if_pos h0, Nat.add_zero], fun j hj hj0 => ?_⟩
      have hne : j ≠ n := fun he => hj0 (he ▸ h0)
      exact hpl j (by omega) hj0
    · simp only [h0, if_false]
      have hlt : occupied newCap grown < newCap := by
        have : occupied n V.idx ≤ n := by
          simpa [occupied] using Finset.card_filter_le (Finset.range n) _
        omega
      have hhome := rowHome_lt V (c := newCap) (by omega) (V.idx n)
      refine ⟨?_, fun j hj hj0 => ?_⟩
      · rw [occupied_insert hlt hhome h0, hocc, occupied_succ, if_neg h0]
      · by_cases hjn : j = n
        · rw [hjn]
          exact placed_insert_self hlt hhome
        · exact (hpl j (by omega) hj0).insert hj0 h0 hlt hhome

theorem evddValueIdxInsert_inv {V : ValueTable P} {S : ℕ → Prop} {id : ℕ} (h : IdxInv V S)
    (hid : id ≠ 0) (hload : 2 * (V.idxCnt + 1) ≤ V.idxCap) :
    IdxInv (evddValueIdxInsert V id) (fun i => S i ∨ i = id) := by
  have hlt : occupied V.idxCap V.idx < V.idxCap := by rw [h.occ]; omega
  have hhome := rowHome_lt V (c := V.idxCap) (by omega) id
  refine ⟨?_, hload, fun i hi => ?_⟩
  · exact (occupied_insert hlt hhome hid).trans (by rw [h.occ]; rfl)
  · rcases hi with hi | rfl
    · obtain ⟨hi0, hp⟩ := h.placed i hi
      exact ⟨hi0, hp.insert hi0 hid hlt hhome⟩
    · exact ⟨hid, placed_insert_self hlt hhome⟩

/-- `evdd_value_idx_put` adds its row to the rows the index finds. -/
theorem evddValueIdxPut_inv {V : ValueTable P} {S : ℕ → Prop} {id : ℕ} (h : IdxInv V S)
    (hid : id ≠ 0) : IdxInv (evddValueIdxPut V id) (fun i => S i ∨ i = id) := by
  rw [evddValueIdxPut]
  split
  · obtain ⟨hg, hload⟩ := evddValueIdxGrow_inv h
    exact evddValueIdxInsert_inv hg hid hload
  · exact evddValueIdxInsert_inv h hid (by omega)

/-- `evdd_value_idx_put` only writes the index. -/
theorem evddValueIdxPut_frame (V : ValueTable P) (id : ℕ) :
    (evddValueIdxPut V id).evddValues = V.evddValues ∧
    (evddValueIdxPut V id).evddmaxValueSize = V.evddmaxValueSize ∧
    (evddValueIdxPut V id).evddLastValueIndex = V.evddLastValueIndex ∧
    (evddValueIdxPut V id).freelist = V.freelist ∧
    (evddValueIdxPut V id).errors = V.errors := by
  rw [evddValueIdxPut]
  split <;> exact ⟨rfl, rfl, rfl, rfl, rfl⟩

/-- The rows of indexed types: those `evdd_value_idx_rebuild` puts into the index. -/
def Indexed (T : ValueTypes P) (V : ValueTable P) (i : ℕ) : Prop :=
  (V.evddValues i).payload.isSome ∧
    ((T.fns (V.evddValues i).type).cellfun.isSome ∨
      (T.fns (V.evddValues i).type).hashfun.isSome)

/-- `evdd_value_idx_rebuild` only writes the index, which finds every live indexed row
afterwards. -/
theorem evddValueIdxRebuild_spec (T : ValueTypes P) {V : ValueTable P}
    (hrow : ∀ i, (V.evddValues i).payload.isSome → 0 < i ∧ i < V.evddLastValueIndex)
    (hcap : V.idxCap = 0 → IdxInv V (Indexed T V)) :
    IdxInv (evddValueIdxRebuild T V) (Indexed T V) ∧
    (evddValueIdxRebuild T V).evddValues = V.evddValues ∧
    (evddValueIdxRebuild T V).evddmaxValueSize = V.evddmaxValueSize ∧
    (evddValueIdxRebuild T V).evddLastValueIndex = V.evddLastValueIndex ∧
    (evddValueIdxRebuild T V).freelist = V.freelist ∧
    (evddValueIdxRebuild T V).errors = V.errors := by
  rw [evddValueIdxRebuild]
  split
  · rename_i h0
    exact ⟨hcap h0, rfl, rfl, rfl, rfl, rfl⟩
  set f := fun i (V : ValueTable P) =>
    if (V.evddValues i).payload.isNone then V
    else if (T.fns (V.evddValues i).type).cellfun.isNone &&
        (T.fns (V.evddValues i).type).hashfun.isNone then V
    else evddValueIdxPut V i with hf
  have hloop := forUp_induct (a := 1) (k := V.evddLastValueIndex - 1) (f := f)
    (s := { V with idx := fun _ => 0, idxCnt := 0 })
    (fun n W => IdxInv W (fun i => i < n ∧ Indexed T V i) ∧ W.evddValues = V.evddValues ∧
      W.evddmaxValueSize = V.evddmaxValueSize ∧
      W.evddLastValueIndex = V.evddLastValueIndex ∧ W.freelist = V.freelist ∧
      W.errors = V.errors) ?_ ?_
  · obtain ⟨hinv, hrest⟩ := hloop
    refine ⟨hinv.congr rfl rfl rfl fun i hi => ⟨⟨?_, hi⟩, rfl, rfl⟩, hrest⟩
    have := hrow i hi.1
    omega
  · refine ⟨⟨occupied_clear, by simp, fun i hi => ?_⟩, rfl, rfl, rfl, rfl, rfl⟩
    have := hrow i hi.2.1
    omega
  · rintro n W h1 - ⟨hinv, hval, hmax, hlast, hfree, herr⟩
    have hsame : ∀ (hn : ¬ Indexed T V n), IdxInv W (fun i => i < n + 1 ∧ Indexed T V i) :=
      fun hn => hinv.congr rfl rfl rfl fun i hi => by
        have : i ≠ n := fun he => hn (he ▸ hi.2)
        exact ⟨⟨by omega, hi.2⟩, rfl, rfl⟩
    rw [hf]
    simp only [hval]
    split
    · rename_i hnone
      exact ⟨hsame fun hn => by simp [Option.isNone_iff_eq_none.mp hnone, Indexed] at hn,
        hval, hmax, hlast, hfree, herr⟩
    · split
      · rename_i hnofun
        refine ⟨hsame fun hn => ?_, hval, hmax, hlast, hfree, herr⟩
        simp only [Bool.and_eq_true, Option.isNone_iff_eq_none] at hnofun
        simp [Indexed, hnofun] at hn
      · rename_i hsome hfun
        obtain ⟨hv', hm', hl', hf', he'⟩ := evddValueIdxPut_frame W n
        refine ⟨(evddValueIdxPut_inv hinv (by omega)).congr rfl rfl rfl fun i hi => ⟨?_, rfl, rfl⟩,
          hv'.trans hval, hm'.trans hmax, hl'.trans hlast, hf'.trans hfree, he'.trans herr⟩
        by_cases hin : i = n
        · exact Or.inr hin
        · exact Or.inl ⟨by omega, hi.2⟩

end MoToBuddy.Evdd
