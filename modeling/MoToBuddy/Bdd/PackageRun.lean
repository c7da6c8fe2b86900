import MoToBuddy.Bdd.Package

/-!
# Sessions with pairs

`Package.Step` lists the calls of a session: the operations, the calls that change pairs, growth of
the number of variables and reordering. A step keeps the diagrams and the pairs well formed
(`Package.Step.consistent`), so that they are in every state of a session (`Package.Reached`).

A reordering is any exchange of levels next to each other after which every referenced node has the
function that it had before.
-/

namespace MoToBuddy.Bdd

open Decision Package

variable {P : Type*} {D : MtbddDomain P} {isPrime : ℕ → Bool} {T : Theory P} {σ : PairTable P}
  {s s' : BddState P} {w w' : Package P}

/-! ## Diagrams -/

theorem Keeps.leveled (h : Keeps D s s') (hlev : s.Leveled) : s'.Leveled := fun n hn => by
  rw [h.const n hn, h.varnum]
  exact hlev n hn

theorem Preserved.base (h : Preserved (full D isPrime σ s.env.bddvarnum) s s')
    (hb : Base D isPrime σ s) : Base D isPrime σ s' :=
  ⟨h.keeps.varnum.symm ▸ h.good, h.keeps.signed hb.signed, h.keeps.leveled hb.leveled⟩

theorem Survives.base (h : Survives D s s') (hg : Good (full D isPrime σ s.env.bddvarnum) s')
    (hb : Base D isPrime σ s) : Base D isPrime σ s' := by
  refine ⟨h.env.symm ▸ hg, h.signed hb.signed, fun n hn => ?_⟩
  rw [h.level n hn, h.env]
  exact hb.leveled n hn

namespace Package

/-- The diagrams and the pairs are well formed, and the pairs own their entries. -/
structure Healthy (D : MtbddDomain P) (isPrime : ℕ → Bool) (w : Package P) : Prop where
  consistent : ∃ σ, w.Consistent D isPrime σ
  owned : w.Owned

/-- An operation on diagrams. -/
theorem Healthy.preserved (ho : w.Owned) (h : w.Consistent D isPrime σ)
    (hp : Preserved (full D isPrime σ w.bdd.env.bddvarnum) w.bdd s') :
    Healthy D isPrime { w with bdd := s' } := by
  refine ⟨⟨σ, h.rebase (hp.base h.toBase) hp.keeps.varnum hp.keeps.level2var
    fun p hmem l hl t hr => ?_⟩, ho.rebase hp.keeps.varnum fun n hn => Or.inr (hp.keeps.refcou n hn)⟩
  exact hp.keeps.reads _ t (ho.referenced hmem (h.shaped p hmem) hl) hr

/-- All nodes stay. -/
theorem Consistent.survives (h : w.Consistent D isPrime σ) (hk : Survives D w.bdd s')
    (hg : Good (full D isPrime σ w.bdd.env.bddvarnum) s') :
    Consistent D isPrime σ { w with bdd := s' } :=
  h.rebase (hk.base hg h.toBase) (by rw [hk.env]) (by rw [hk.env]) fun _ _ _ _ t hr =>
    hk.reads _ t hr

/-! ## Changes of pairs -/

/-- The last level after an entry was written. -/
def lastAfter (last : ℤ) (level : ℕ) : ℤ := if (level : ℤ) > last then level else last

theorem setEntry_eq (w : Package P) (pair level new : ℕ) : w.setEntry pair level new =
    (w.modify pair fun p => { p with
      result := Function.update p.result level new
      last := lastAfter p.last level }).refresh pair := by
  unfold setEntry
  dsimp only
  rw [refresh_modify w pair (fun _ _ => rfl), refresh_modify w pair (fun _ _ => rfl),
    modify_modify]
  rfl

theorem shaped_update {q : BddPair} (h : Shaped D s q) {level new : ℕ}
    (hl : level < s.env.bddvarnum) {f : (ℕ → Bool) → Bool} (hf : s.Represents D new f) :
    Shaped D s { q with
      result := Function.update q.result level new
      last := lastAfter q.last level } := by
  refine ⟨fun l hl' => ?_, ?_⟩
  · by_cases hll : l = level
    · subst hll
      exact ⟨f, by simpa using hf⟩
    · simpa [Function.update_of_ne hll] using h.entry l hl'
  · have hlast := h.last
    show lastAfter q.last level ≤ 0 ∨ lastAfter q.last level < s.env.bddvarnum
    unfold lastAfter
    split <;> omega

theorem owned_refresh {pair : ℕ} {f : BddPair → BddPair}
    (h : w.bdd.Covers (w.modify pair f).entries) : ((w.modify pair f).refresh pair).Owned := by
  obtain ⟨C, hC⟩ := updatePairsid_bdd (w.modify pair f)
  unfold Owned
  rw [entries_refresh, show ((w.modify pair f).refresh pair).bdd = _ from hC]
  exact h

/-- A written entry: the old one has been given back, and the new one has a reference. -/
theorem Healthy.setEntry (h : w.Consistent D isPrime σ) {p : ℕ × BddPair} (hp : p ∈ w.pairs)
    {level new : ℕ} (hl : level < w.bdd.env.bddvarnum) {f : (ℕ → Bool) → Bool}
    (hf : w.bdd.Represents D new f)
    (hcover : ∀ L, w.entries.Perm (p.2.result level :: L) → w.bdd.Covers (new :: L)) :
    Healthy D isPrime (w.setEntry p.1 level new) := by
  rw [setEntry_eq]
  refine ⟨h.refresh (fun _ _ => rfl) hp (shaped_update (h.shaped p hp) hl hf), ?_⟩
  obtain ⟨L, hold, hnew⟩ := h.entries_update (f := fun p => { p with
    result := Function.update p.result level new
    last := lastAfter p.last level }) hp hl rfl
  exact owned_refresh ((hcover L hold).perm hnew.symm)

/-- A reference to an entry is given back before the entry is written. -/
theorem Consistent.delref (h : w.Consistent D isPrime σ) (n : ℕ) :
    Consistent D isPrime σ { w with bdd := bddDelref w.bdd n } :=
  h.survives (survives_delref w.bdd n) (h.good.delref n)

theorem Healthy.setpair (hw : w.Healthy D isPrime) (pair : ℕ) (oldvar newvar : ℤ) :
    Healthy D isPrime (w.setpair pair oldvar newvar).2 := by
  obtain ⟨⟨σ, h⟩, ho⟩ := hw
  have herror : Healthy D isPrime (w.error .var) := .preserved ho h (h.good.preserved_error .var)
  unfold Package.setpair
  cases hlook : w.pairs.lookup pair with
  | none => exact ⟨⟨σ, h⟩, ho⟩
  | some p =>
    dsimp only
    by_cases hold : oldvar < 0 ∨ oldvar > w.bdd.env.bddvarnum - 1
    · rw [if_pos hold]
      exact herror
    rw [if_neg hold]
    by_cases hnew : newvar < 0 ∨ newvar > w.bdd.env.bddvarnum - 1
    · rw [if_pos hnew]
      exact herror
    rw [if_neg hnew]
    have hlevel := h.good.order.level oldvar.toNat (by omega)
    have hk := survives_delref (D := D) w.bdd (p.result (w.bdd.env.bddvar2level oldvar.toNat))
    have h' := h.delref (p.result (w.bdd.env.bddvar2level oldvar.toNat))
    generalize hs' : bddDelref w.bdd (p.result (w.bdd.env.bddvar2level oldvar.toNat)) = s'
      at hk h' ⊢
    have hv : newvar.toNat < s'.env.bddvarnum := by
      rw [hk.env]
      omega
    obtain ⟨hith, -, hsat, -⟩ := h'.good.ithvar hv
    rw [hith]
    refine Healthy.setEntry (w := { w with bdd := s' }) (p := (pair, p)) h' (lookup_mem hlook)
      (by rw [hk.env]; exact hlevel.1) (h'.good.ithvar_represents hv) fun L hL => ?_
    have hcov : s'.Covers L := by
      rw [← hs']
      refine BddState.Covers.delref (BddState.Covers.perm ho ?_)
      have hentries : entries { w with bdd := s' } = w.entries :=
        entries_congr (congrArg BddEnv.bddvarnum hk.env) rfl
      exact hentries ▸ hL
    -- no reference is needed for the node of a variable
    exact hcov.saturated [_] (by simpa using hsat)

theorem Healthy.setbddpair (hw : w.Healthy D isPrime) (pair : ℕ) (oldvar : ℤ) {newvar : ℕ}
    (hfit : w.bdd.Fit D newvar) : Healthy D isPrime (w.setbddpair pair oldvar newvar).2 := by
  obtain ⟨⟨σ, h⟩, ho⟩ := hw
  have herror : ∀ e, Healthy D isPrime (w.error e) := fun e =>
    .preserved ho h (h.good.preserved_error e)
  unfold Package.setbddpair
  cases hlook : w.pairs.lookup pair with
  | none => exact ⟨⟨σ, h⟩, ho⟩
  | some p =>
    dsimp only
    by_cases hsize : newvar ≥ w.bdd.bddnodesize
    · rw [if_pos hsize]
      exact herror _
    rw [if_neg hsize]
    by_cases hfree : 2 ≤ newvar ∧ w.bdd.isFree newvar
    · rw [if_pos hfree]
      exact herror _
    rw [if_neg hfree]
    by_cases hold : oldvar < 0 ∨ oldvar ≥ w.bdd.env.bddvarnum
    · rw [if_pos hold]
      exact herror _
    rw [if_neg hold]
    have hnode : w.bdd.IsNode newvar := by
      by_cases h2 : newvar < 2
      · exact Or.inl h2
      · refine Or.inr ?_
        have hfree' : ¬ w.bdd.isFree newvar = true := fun hf => hfree ⟨by omega, hf⟩
        rw [isFree_eq (by omega)] at hfree'
        simpa using hfree'
    obtain ⟨f, -, hf⟩ := hfit hnode
    have hlevel := h.good.order.level oldvar.toNat (by omega)
    have hk := survives_delref (D := D) w.bdd (p.result (w.bdd.env.bddvar2level oldvar.toNat))
    have h' := h.delref (p.result (w.bdd.env.bddvar2level oldvar.toNat))
    have hcov : ∀ L, w.entries.Perm (p.result (w.bdd.env.bddvar2level oldvar.toNat) :: L) →
        (bddDelref w.bdd (p.result (w.bdd.env.bddvar2level oldvar.toNat))).Covers L := fun L hL =>
      BddState.Covers.delref (BddState.Covers.perm ho hL)
    generalize bddDelref w.bdd (p.result (w.bdd.env.bddvar2level oldvar.toNat)) = s'
      at hk h' hcov ⊢
    have hnode' : s'.IsNode newvar := by
      obtain ⟨t, hr, -⟩ := hk.represents hf
      exact hr.isNode
    have hk' := survives_addref (D := D) s' newvar
    have h'' : Consistent D isPrime σ { w with bdd := bddAddref s' newvar } :=
      h'.survives hk' (h'.good.addref newvar)
    have henv : (bddAddref s' newvar).env = w.bdd.env := hk'.env.trans hk.env
    refine Healthy.setEntry (w := { w with bdd := bddAddref s' newvar }) (p := (pair, p)) h''
      (lookup_mem hlook) (by rw [henv]; exact hlevel.1)
      (hk'.represents (hk.represents hf)) fun L hL => ?_
    refine BddState.Covers.addref (hcov L ?_) h'.good hnode'
    have hentries : entries { w with bdd := bddAddref s' newvar } = w.entries :=
      entries_congr (congrArg BddEnv.bddvarnum henv) rfl
    exact hentries ▸ hL

/-- The entries that a pair gets by `bdd_resetpair`. -/
def resetEntries (s : BddState P) (q : BddPair) : BddPair :=
  { q with
    result := fun n => if n < s.env.bddvarnum then (bddIthvar s n).1 else q.result n
    last := 0 }

theorem resetpair_eq (w : Package P) (pair : ℕ) :
    w.resetpair pair = (w.modify pair (resetEntries w.bdd)).refresh pair := rfl

theorem Healthy.resetpair (hw : w.Healthy D isPrime) {p : ℕ × BddPair} (hp : p ∈ w.pairs) :
    Healthy D isPrime (w.resetpair p.1) := by
  obtain ⟨⟨σ, h⟩, ho⟩ := hw
  rw [resetpair_eq]
  have hentry : ∀ l < w.bdd.env.bddvarnum,
      (resetEntries w.bdd p.2).result l = w.bdd.env.bddvarset (2 * l) := fun l hl => by
    show (if l < w.bdd.env.bddvarnum then (bddIthvar w.bdd l).1 else _) = _
    rw [if_pos hl, (h.good.ithvar hl).1]
  refine ⟨h.refresh (fun _ _ => rfl) hp ⟨fun l hl => ⟨fun a => a l, ?_⟩, Or.inl le_rfl⟩, owned_refresh ?_⟩
  · rw [hentry l hl]
    exact h.good.ithvar_represents hl
  · obtain ⟨A, B, hA, hB⟩ := h.entries_modify hp (resetEntries w.bdd)
    rw [hB]
    have hsub : w.bdd.Covers (A ++ B) := BddState.Covers.mono ho fun n => by
      rw [hA, List.count_append, List.count_append, List.count_append]
      omega
    rw [List.append_assoc]
    refine BddState.Covers.perm (hsub.saturated
      ((List.range w.bdd.env.bddvarnum).map (resetEntries w.bdd p.2).result) ?_)
      (List.perm_append_comm_assoc _ _ _)
    intro n hn
    obtain ⟨l, hl, rfl⟩ := List.mem_map.mp hn
    have hl := List.mem_range.mp hl
    rw [hentry l hl]
    exact (h.good.ithvar hl).2.2.1

theorem Healthy.freepair (hw : w.Healthy D isPrime) (pair : ℕ) :
    Healthy D isPrime (w.freepair pair) := by
  obtain ⟨⟨σ, h⟩, ho⟩ := hw
  unfold Package.freepair
  cases hlook : w.pairs.lookup pair with
  | none => exact ⟨⟨σ, h⟩, ho⟩
  | some p =>
    dsimp only
    have hp := lookup_mem hlook
    have hsub : (w.pairs.filter fun q => q.1 ≠ pair).Sublist w.pairs := List.filter_sublist
    -- the entries are those of the pair and those of the others
    obtain ⟨l₁, l₂, hl⟩ := List.append_of_mem hp
    have hapart := h.apart
    rw [hl, List.pairwise_append, List.pairwise_cons] at hapart
    obtain ⟨-, ⟨h₂, -⟩, h₁⟩ := hapart
    have hothers : w.pairs.filter (fun q => q.1 ≠ pair) = l₁ ++ l₂ := by
      rw [hl, List.filter_append, List.filter_cons_of_neg (by simp),
        List.filter_eq_self.mpr fun q hq => by
          simpa using (h₁ q hq (pair, p) List.mem_cons_self).1,
        List.filter_eq_self.mpr fun q hq => by simpa using (h₂ q hq).1.symm]
    have hcov : w.bdd.Covers ((List.range w.bdd.env.bddvarnum).map p.result ++
        entries { w with pairs := w.pairs.filter fun q => q.1 ≠ pair }) := by
      refine BddState.Covers.perm ho ?_
      unfold entries
      dsimp only
      rw [hothers, hl, List.flatMap_append, List.flatMap_append, List.flatMap_cons]
      exact List.perm_append_comm_assoc _ _ _
    obtain ⟨hg, hk, hc⟩ := delref_loop p.result w.bdd.env.bddvarnum h.good hcov
    have hnum := congrArg BddEnv.bddvarnum hk.env
    have h' := (h.survives hk hg).sublist hsub
    refine ⟨⟨σ, h'⟩, ?_⟩
    have hentries : entries { w with
        bdd := CountedLoop.forUp 0 w.bdd.env.bddvarnum (fun n s => bddDelref s (p.result n)) w.bdd
        pairs := w.pairs.filter fun q => q.1 ≠ pair } =
        entries { w with pairs := w.pairs.filter fun q => q.1 ≠ pair } := entries_congr hnum rfl
    unfold Owned
    rw [hentries]
    exact hc

theorem Healthy.newpair (hw : w.Healthy D isPrime) {pair : ℕ} (hnew : ∀ p ∈ w.pairs, p.1 ≠ pair)
    (hroom : w.pairs.length + 1 < maxPairsid) : Healthy D isPrime (w.newpair pair) := by
  obtain ⟨⟨σ, h⟩, ho⟩ := hw
  obtain ⟨σ', h', hid, hnone⟩ := h.updatePairsid
  obtain ⟨C, hC⟩ := updatePairsid_bdd w
  have hentry : ∀ l < w.bdd.env.bddvarnum,
      (bddIthvar w.bdd (w.bdd.env.bddlevel2var l)).1 =
        w.bdd.env.bddvarset (2 * w.bdd.env.bddlevel2var l) := fun l hl => by
    rw [(h.good.ithvar (h.good.order.var l hl).1).1]
  have heq : w.newpair pair = { w.updatePairsid.2 with
      pairs := (pair, ⟨fun n => (bddIthvar w.bdd (w.bdd.env.bddlevel2var n)).1, -1,
        w.updatePairsid.2.pairsid⟩) :: w.updatePairsid.2.pairs } := by
    unfold Package.newpair
    dsimp only
    rw [updatePairsid_fst]
  rw [heq]
  have hother : ∀ q ∈ w.updatePairsid.2.pairs, q.1 ≠ pair :=
    forall_updatePairsid (p := fun a _ _ => a ≠ pair) hnew
  have hlength : w.updatePairsid.2.pairs.length = w.pairs.length := by
    simpa using congrArg List.length (updatePairsid_pairs w)
  refine ⟨h'.renew (r := (pair, _)) hid hnone ⟨fun l hl => ?_, Or.inl (Int.neg_nonpos_of_nonneg
      Int.one_nonneg)⟩ rfl (fun p hp => List.mem_cons.mp hp) (List.pairwise_cons.mpr ⟨fun q hq => ?_, h'.apart⟩) ?_, ?_⟩
  · rw [hC] at hl ⊢
    dsimp only
    rw [hentry l hl]
    obtain ⟨t, ht⟩ := h.good.ithvar_represents (h.good.order.var l hl).1
    exact ⟨_, t, ht.1.congr fun _ _ => ⟨rfl, fun _ _ => rfl⟩, ht.2⟩
  · exact ⟨(hother q hq).symm, (hid q hq).ne'⟩
  · rw [List.length_cons, hlength]
    exact hroom
  · have hcov : w.updatePairsid.2.bdd.Covers w.entries := by
      rw [hC]
      exact ho
    have hentries : w.updatePairsid.2.entries = w.entries := by
      have hpairs := congrArg (List.map fun x : ℕ × (ℕ → ℕ) × ℤ => x.2.1) (updatePairsid_pairs w)
      rw [List.map_map, List.map_map] at hpairs
      exact entries_congr (congrArg (·.env.bddvarnum) hC) hpairs
    rw [← hentries] at hcov
    refine hcov.saturated _ fun n hn => ?_
    obtain ⟨l, hl, rfl⟩ := List.mem_map.mp hn
    rw [hC] at hl ⊢
    have hl := List.mem_range.mp hl
    dsimp only
    rw [hentry l hl]
    exact (h.good.ithvar (h.good.order.var l hl).1).2.2.1

/-! ## Levels -/

/-- Exchanging two levels of a table. -/
theorem swapAt_eq (level : ℕ) (f : ℕ → ℕ) (n : ℕ) :
    swapAt level f n = f (Equiv.swap level (level + 1) n) := by
  unfold swapAt
  rw [Function.update_apply, Function.update_apply, Equiv.swap_apply_def]
  split_ifs <;> first | rfl | omega

theorem range_map_swapAt {level n : ℕ} (hl : level + 1 < n) (f : ℕ → ℕ) :
    ((List.range n).map (swapAt level f)).Perm ((List.range n).map f) := by
  have hswap : (List.range n).map (swapAt level f) =
      ((List.range n).map (Equiv.swap level (level + 1))).map f := by
    rw [List.map_map]
    exact List.map_congr_left fun l _ => swapAt_eq level f l
  rw [hswap]
  refine List.Perm.map f ((List.perm_ext_iff_of_nodup
    (List.nodup_range.map (Equiv.injective _)) List.nodup_range).mpr fun m => ?_)
  rw [List.mem_map, List.mem_range]
  constructor
  · rintro ⟨k, hk, rfl⟩
    have hk := List.mem_range.mp hk
    rw [Equiv.swap_apply_def]
    split_ifs <;> omega
  · refine fun hm => ⟨Equiv.swap level (level + 1) m, List.mem_range.mpr ?_, Equiv.swap_apply_self ..⟩
    rw [Equiv.swap_apply_def]
    split_ifs <;> omega

theorem Arranged.pairsVardown (h : Arranged D w) {level : ℕ}
    (hl : level + 1 < w.bdd.env.bddvarnum) : Arranged D (w.pairsVardown level) where
  apart := List.pairwise_map.mpr h.apart
  issued := by
    intro p hp
    obtain ⟨q, hq, rfl⟩ := List.mem_map.mp hp
    exact h.issued q hq
  bound := h.bound
  room := by
    show (w.pairs.map _).length < maxPairsid
    rw [List.length_map]
    exact h.room
  shaped := by
    intro p hp
    obtain ⟨q, hq, rfl⟩ := List.mem_map.mp hp
    obtain ⟨hentry, hlast⟩ := h.shaped q hq
    refine ⟨fun l hl' => ?_, ?_⟩
    · show ∃ f, w.bdd.Represents D (swapAt level q.2.result l) f
      rw [swapAt_eq]
      refine hentry _ ?_
      have hl' : l < w.bdd.env.bddvarnum := hl'
      rw [Equiv.swap_apply_def]
      split_ifs <;> omega
    · show (if q.2.last = level then q.2.last + 1 else q.2.last) ≤ 0 ∨
        (if q.2.last = level then q.2.last + 1 else q.2.last) < w.bdd.env.bddvarnum
      split_ifs <;> omega

theorem Owned.pairsVardown (h : w.Owned) {level : ℕ} (hl : level + 1 < w.bdd.env.bddvarnum) :
    (w.pairsVardown level).Owned := by
  refine BddState.Covers.perm h (List.Perm.symm ?_)
  unfold entries Package.pairsVardown
  rw [List.flatMap_map]
  exact List.Perm.flatMap_left _ fun p _ => range_map_swapAt hl p.2.result

/-- A reordering of the levels, for the pairs. -/
def reordered (w : Package P) (levels : List ℕ) : Package P :=
  levels.foldl (fun w level => w.pairsVardown level) w

theorem reordered_bdd (w : Package P) (levels : List ℕ) :
    (w.reordered levels).bdd = w.bdd := by
  induction levels generalizing w with
  | nil => rfl
  | cons level levels ih => exact ih (w.pairsVardown level)

theorem Arranged.reordered (h : Arranged D w) (ho : w.Owned) {levels : List ℕ}
    (hl : ∀ l ∈ levels, l + 1 < w.bdd.env.bddvarnum) :
    Arranged D (w.reordered levels) ∧ (w.reordered levels).Owned := by
  induction levels generalizing w with
  | nil => exact ⟨h, ho⟩
  | cons level levels ih =>
    have hlevel := hl level List.mem_cons_self
    exact ih (h.pairsVardown hlevel) (ho.pairsVardown hlevel)
      fun l hmem => hl l (List.mem_cons_of_mem _ hmem)

end Package

/-- A reordering that succeeded: levels next to each other were exchanged one after the other, and
the referenced nodes still have their functions. -/
structure Rearranged (D : MtbddDomain P) (isPrime : ℕ → Bool) (levels : List ℕ)
    (s s' : BddState P) : Prop extends
    Reordered (full D isPrime (fun _ => none) s.env.bddvarnum) s s' where
  swaps : ∀ l ∈ levels, l + 1 < s.env.bddvarnum
  level2var : s'.env.bddlevel2var = levels.foldl (fun f level => swapAt level f) s.env.bddlevel2var
  refcou : ∀ n, 2 ≤ n →
    maxref ≤ (s'.bddnodes n).refcou ∨ (s.bddnodes n).refcou ≤ (s'.bddnodes n).refcou
  const : ∀ n, n < 2 → s'.level n = s.level n
  marks : s'.env.quantvarset = s.env.quantvarset ∧ s'.env.quantvarsetID = s.env.quantvarsetID

theorem Rearranged.base {levels : List ℕ} (h : Rearranged D isPrime levels s s')
    (hb : Base D isPrime σ s) (σ' : PairTable P) : Base D isPrime σ' s' := by
  refine ⟨h.good.flushed h.flushed σ' _, ?_, fun n hn => ?_⟩
  · have hs := hb.signed
    unfold BddState.Signed at hs ⊢
    rw [h.marks.1, h.marks.2, h.varnum]
    exact hs
  · rw [h.const n hn, h.varnum]
    exact hb.leveled n hn

namespace Package

theorem Healthy.reordered (hw : w.Healthy D isPrime) {levels : List ℕ}
    (hs : Rearranged D isPrime levels w.bdd s') :
    Healthy D isPrime (reordered { w with bdd := s' } levels) := by
  obtain ⟨⟨σ, h⟩, ho⟩ := hw
  have harranged : Arranged D { w with bdd := s' } := {
    h.toArranged with
    shaped := fun p hp => (h.shaped p hp).reads hs.varnum fun l hl f hf =>
      (hs.usable _ f ⟨ho.referenced hp (h.shaped p hp) hl, hf⟩).2 }
  have howned : Owned { w with bdd := s' } := ho.rebase hs.varnum hs.refcou
  obtain ⟨ha, ho'⟩ := harranged.reordered howned fun l hl => by
    show l + 1 < s'.env.bddvarnum
    rw [hs.varnum]
    exact hs.swaps l hl
  refine ⟨ha.consistent fun σ' => ?_, ho'⟩
  rw [reordered_bdd]
  exact hs.base h.toBase σ'

end Package

theorem SetvarnumSpec.base (h : SetvarnumSpec (full D isPrime σ s.env.bddvarnum) s s')
    (hb : Base D isPrime σ s) : Base D isPrime σ s' := by
  rcases h.cases with ⟨henv, hconst⟩ | ⟨hlt, hconst, hset, hid, hflush⟩
  · refine ⟨henv.symm ▸ h.good, h.signed hb.signed, fun n hn => ?_⟩
    rw [hconst n hn, henv]
    exact hb.leveled n hn
  · refine ⟨h.good.recounted hflush _, h.signed hb.signed, fun n hn => ?_⟩
    rw [hconst n hn, if_neg (by omega)]

namespace Package

theorem Healthy.setvarnum (hw : w.Healthy D isPrime) (num : ℕ)
    (hok : (w.setvarnum D isPrime num).bdd.Ok) :
    Healthy D isPrime (w.setvarnum D isPrime num) := by
  obtain ⟨⟨σ, h⟩, ho⟩ := hw
  have hspec : SetvarnumSpec (full D isPrime σ w.bdd.env.bddvarnum) w.bdd
      (bddSetvarnum D isPrime w.bdd num) := bddSetvarnum_spec h.good num hok
  unfold Package.setvarnum
  dsimp only
  generalize bddSetvarnum D isPrime w.bdd num = s' at hspec ⊢
  have hb := hspec.base h.toBase
  have hle : w.bdd.env.bddvarnum ≤ s'.env.bddvarnum := hspec.grows.varnum
  have href : ∀ p ∈ w.pairs, ∀ l < w.bdd.env.bddvarnum, w.bdd.Referenced (p.2.result l) :=
    fun p hp l hl => ho.referenced hp (h.shaped p hp) hl
  -- the new entries are the new variables
  have hnew : ∀ l, w.bdd.env.bddvarnum ≤ l → l < s'.env.bddvarnum →
      (bddIthvar s' (s'.env.bddlevel2var l)).1 = s'.env.bddvarset (2 * l) ∧
      s'.Reads D (s'.env.bddvarset (2 * l)) (selfTree l) ∧
      (s'.bddnodes (s'.env.bddvarset (2 * l))).refcou = maxref := by
    intro l hl hlt
    have hvar : s'.env.bddlevel2var l = l := hspec.grows.new l hl hlt
    obtain ⟨hith, hr, hsat, -⟩ := hb.good.ithvar hlt
    have hback := (hb.good.order.var l hlt).2
    rw [hvar] at hback ⊢
    rw [hback] at hr
    exact ⟨by rw [hith], hr, hsat⟩
  let result : BddPair → ℕ → ℕ := fun q n =>
    if w.bdd.env.bddvarnum ≤ n ∧ n < s'.env.bddvarnum then
      (bddIthvar s' (s'.env.bddlevel2var n)).1
    else q.result n
  have hold : ∀ (q : BddPair) l, l < w.bdd.env.bddvarnum → result q l = q.result l := fun q l hl =>
    if_neg (by omega)
  have hresult : ∀ (q : BddPair) l, w.bdd.env.bddvarnum ≤ l → l < s'.env.bddvarnum →
      result q l = s'.env.bddvarset (2 * l) := fun q l hl hlt =>
    (if_pos ⟨hl, hlt⟩).trans (hnew l hl hlt).1
  refine ⟨⟨σ, {
    hb with
    apart := List.pairwise_map.mpr h.apart
    issued := fun p hp => ?_
    bound := h.bound
    room := (List.length_map _).trans_lt h.room
    shaped := fun p hp => ?_
    fresh := h.fresh
    linked := fun p hp => ?_ }⟩, ?_⟩
  · obtain ⟨q, hq, rfl⟩ := List.mem_map.mp hp
    exact h.issued q hq
  · obtain ⟨q, hq, rfl⟩ := List.mem_map.mp hp
    refine ⟨fun l hl => ?_, ?_⟩
    · show ∃ f, s'.Represents D (result q.2 l) f
      by_cases hlo : l < w.bdd.env.bddvarnum
      · rw [hold q.2 l hlo]
        obtain ⟨f, hf⟩ := (h.shaped q hq).entry l hlo
        exact ⟨f, hspec.represents h.good (href q hq l hlo) hf⟩
      · have hl : l < s'.env.bddvarnum := hl
        rw [hresult q.2 l (by omega) hl]
        exact ⟨_, _, (hnew l (by omega) hl).2.1, ⟨trivial, trivial⟩, fun a => rfl⟩
    · have hlast := (h.shaped q hq).last
      show q.2.last ≤ 0 ∨ q.2.last < s'.env.bddvarnum
      omega
  · obtain ⟨q, hq, rfl⟩ := List.mem_map.mp hp
    obtain ⟨θ, hσ, hθ⟩ := h.linked q hq
    refine ⟨θ, hσ, fun l hl hlast => ?_, fun l hl => hθ.rest l ?_⟩
    · show s'.Reads D (result q.2 l) (θ l) ∧ IsBool (θ l)
      by_cases hlo : l < w.bdd.env.bddvarnum
      · rw [hold q.2 l hlo]
        exact (hθ.entry l hlo hlast).imp_left (hspec.reads (href q hq l hlo))
      · have hl : l < s'.env.bddvarnum := hl
        rw [hresult q.2 l (by omega) hl, hθ.rest l (Or.inr (by omega))]
        exact ⟨(hnew l (by omega) hl).2.1, trivial, trivial⟩
    · have hl : q.2.last < l ∨ s'.env.bddvarnum ≤ l := hl
      omega
  · have hsplit : ∀ q : BddPair, (List.range s'.env.bddvarnum).map (result q) =
        (List.range w.bdd.env.bddvarnum).map q.result ++
          (List.range (s'.env.bddvarnum - w.bdd.env.bddvarnum)).map
            fun k => s'.env.bddvarset (2 * (w.bdd.env.bddvarnum + k)) := by
      intro q
      conv_lhs => rw [← Nat.add_sub_cancel' hle, List.range_add, List.map_append, List.map_map]
      refine congrArg₂ _ (List.map_congr_left fun l hl => hold q l (List.mem_range.mp hl))
        (List.map_congr_left fun k hk => ?_)
      have hk := List.mem_range.mp hk
      exact hresult q (w.bdd.env.bddvarnum + k) (by omega) (by omega)
    show s'.Covers ((w.pairs.map _).flatMap fun p : ℕ × BddPair =>
      (List.range s'.env.bddvarnum).map p.2.result)
    rw [List.flatMap_map, show (fun p : ℕ × BddPair =>
      (List.range s'.env.bddvarnum).map (result p.2)) = _ from funext fun p => hsplit p.2]
    refine BddState.Covers.perm (BddState.Covers.saturated (hspec.covers ho)
      (w.pairs.flatMap fun _ => (List.range (s'.env.bddvarnum - w.bdd.env.bddvarnum)).map
        fun k => s'.env.bddvarset (2 * (w.bdd.env.bddvarnum + k))) fun n hn => ?_)
      (List.perm_append_comm.trans (List.flatMap_append_perm _ _ _))
    obtain ⟨-, -, hn⟩ := List.mem_flatMap.mp hn
    obtain ⟨k, hk, rfl⟩ := List.mem_map.mp hn
    have hk := List.mem_range.mp hk
    exact (hnew _ (by omega) (by omega)).2.2

/-- A reference that the user has besides those of the pairs is given back. -/
theorem Healthy.delref (hw : w.Healthy D isPrime) {n : ℕ} (hn : w.bdd.IsNode n → n < 2 ∨
    maxref ≤ (w.bdd.bddnodes n).refcou ∨ w.entries.count n < (w.bdd.bddnodes n).refcou) :
    Healthy D isPrime { w with bdd := bddDelref w.bdd n } := by
  obtain ⟨⟨σ, h⟩, ho⟩ := hw
  refine ⟨⟨σ, h.delref n⟩, ?_⟩
  have hentries : entries { w with bdd := bddDelref w.bdd n } = w.entries :=
    entries_congr (congrArg BddEnv.bddvarnum (survives_delref (D := D) w.bdd n).env) rfl
  unfold Owned
  rw [hentries]
  by_cases hnode : w.bdd.IsNode n
  · refine BddState.Covers.delref fun m hm => ?_
    by_cases hmn : m = n
    · subst hmn
      have := hn hnode
      rw [List.count_cons_self]
      omega
    · rw [List.count_cons_of_ne (Ne.symm hmn)]
      exact ho m hm
  · -- only an error is told
    have hne : (bddDelref w.bdd n).bddnodes = w.bdd.bddnodes := by
      unfold bddDelref changeref
      have h2 : ¬ n < 2 := fun h2 => hnode (Or.inl h2)
      rw [if_neg h2]
      split_ifs with hsize hfree
      · rfl
      · rfl
      · refine absurd (Or.inr ?_) hnode
        rw [isFree_eq (by omega)] at hfree
        simpa using hfree
    intro m hm
    rw [hne]
    exact ho m hm

end Package

/-! ## Substitutions -/

section

variable {p : ℕ × BddPair} {r res : ℕ}

theorem pairsid_lt {n : ℕ} (hle : n ≤ w.pairsid) (hbound : w.pairsid < maxPairsid) :
    n < 2 ^ 29 := by
  have hmax : maxPairsid < 2 ^ 29 := by decide
  omega

/-- The trees of a pair in use. -/
theorem Package.Consistent.pairReads (h : w.Consistent D isPrime σ) (ho : w.Owned)
    (hp : p ∈ w.pairs) : ∃ θ, σ p.2.id = some θ ∧ Linked D w.bdd p.2 θ ∧
      PairReads D w.bdd p.2 θ := by
  obtain ⟨θ, hσ, hθ⟩ := h.linked p hp
  exact ⟨θ, hσ, hθ, hθ.reads h.leveled (h.shaped p hp).last fun l hl =>
    ho.referenced hp (h.shaped p hp) hl⟩

/-- An operation that leaves the marks alone. -/
theorem Finished.preserved {Q : Prop → DTree (Leaf P) → Prop} {r : ℕ × BddState P}
    (h : Finished T s Q r) (hs : Good T s) : Preserved T s r.2 := ⟨h.good hs.marks, h.keeps⟩

theorem bddReplace_preserved (h : w.Consistent D isPrime σ) (ho : w.Owned) (hp : p ∈ w.pairs)
    (hr : w.bdd.Fit D r) (heq : bddReplace D isPrime r p.2 w.bdd = some (res, s')) :
    Preserved (full D isPrime σ w.bdd.env.bddvarnum) w.bdd s' := by
  refine checka_preserved h.good (fun hn _ => ?_) heq
  obtain ⟨f, href, t, hreads, hb, -⟩ := hr hn
  obtain ⟨θ, hσ, -, hpair⟩ := h.pairReads ho hp
  obtain ⟨r', hr', hfin⟩ := bddReplace_finished (T := full D isPrime σ w.bdd.env.bddvarnum) trivial
    (fun _ _ => full_substituting) h.good hpair (pairsid_lt (h.issued p hp) h.bound) hσ href
    hreads hb
  exact Preserved.of_eq ⟨r', hr', hfin.preserved h.good⟩ heq

theorem bddVeccompose_preserved (h : w.Consistent D isPrime σ) (ho : w.Owned) (hp : p ∈ w.pairs)
    (hr : w.bdd.Fit D r) (heq : bddVeccompose D isPrime r p.2 w.bdd = some (res, s')) :
    Preserved (full D isPrime σ w.bdd.env.bddvarnum) w.bdd s' := by
  refine checka_preserved h.good (fun hn _ => ?_) heq
  obtain ⟨f, href, t, hreads, hb, -⟩ := hr hn
  obtain ⟨θ, hσ, -, hpair⟩ := h.pairReads ho hp
  obtain ⟨r', hr', hfin⟩ := bddVeccompose_finished (T := full D isPrime σ w.bdd.env.bddvarnum)
    (fun _ _ => full_substituting) h.good hpair (pairsid_lt (h.issued p hp) h.bound) hσ href
    hreads hb
  exact Preserved.of_eq ⟨r', hr', hfin.preserved h.good⟩ heq

end

namespace Package

/-! ## Sessions -/

/-- What a function may be given as a pair. -/
def Valid (w : Package P) (pair : ℕ) : Prop := pair = 0 ∨ ∃ p ∈ w.pairs, p.1 = pair

/-- A call of a session. Only pairs that `writes` allows are changed, and `bdd_resetpair` is only
called in states that meet `reset`. -/
inductive Action (D : MtbddDomain P) (isPrime : ℕ → Bool) (reset : BddState P → Prop)
    (writes : ℕ → Prop) (w : Package P) : Package P → Prop
  | act (s' : BddState P) (h : Act D isPrime w.bdd s') :
      Action D isPrime reset writes w { w with bdd := s' }
  | delref (n : ℕ) (hn : w.bdd.IsNode n → n < 2 ∨ maxref ≤ (w.bdd.bddnodes n).refcou ∨
      w.entries.count n < (w.bdd.bddnodes n).refcou) :
      Action D isPrime reset writes w { w with bdd := bddDelref w.bdd n }
  | setvarnum (num : ℕ) : Action D isPrime reset writes w (w.setvarnum D isPrime num)
  | reorder (levels : List ℕ) (s' : BddState P) (h : Rearranged D isPrime levels w.bdd s') :
      Action D isPrime reset writes w (reordered { w with bdd := s' } levels)
  | replace (p : ℕ × BddPair) (r res : ℕ) (s' : BddState P) (hp : p ∈ w.pairs)
      (hr : w.bdd.Fit D r) (h : bddReplace D isPrime r p.2 w.bdd = some (res, s')) :
      Action D isPrime reset writes w { w with bdd := s' }
  | veccompose (p : ℕ × BddPair) (r res : ℕ) (s' : BddState P) (hp : p ∈ w.pairs)
      (hr : w.bdd.Fit D r) (h : bddVeccompose D isPrime r p.2 w.bdd = some (res, s')) :
      Action D isPrime reset writes w { w with bdd := s' }
  | newpair (pair : ℕ) (h0 : pair ≠ 0) (hnew : ∀ p ∈ w.pairs, p.1 ≠ pair)
      (hroom : w.pairs.length + 1 < maxPairsid) : Action D isPrime reset writes w (w.newpair pair)
  | setpair (pair : ℕ) (oldvar newvar : ℤ) (hpair : w.Valid pair) (hwrites : writes pair) :
      Action D isPrime reset writes w (w.setpair pair oldvar newvar).2
  | setbddpair (pair : ℕ) (oldvar : ℤ) (newvar : ℕ) (hpair : w.Valid pair) (hwrites : writes pair)
      (hfit : w.bdd.Fit D newvar) :
      Action D isPrime reset writes w (w.setbddpair pair oldvar newvar).2
  | resetpair (p : ℕ × BddPair) (hp : p ∈ w.pairs) (h : reset w.bdd) (hwrites : writes p.1) :
      Action D isPrime reset writes w (w.resetpair p.1)
  | freepair (pair : ℕ) (hpair : w.Valid pair) (hwrites : writes pair) :
      Action D isPrime reset writes w (w.freepair pair)

/-- A call keeps the diagrams and the pairs well formed, as long as nothing was reported. -/
theorem Action.healthy {reset : BddState P → Prop} {writes : ℕ → Prop}
    (h : Action D isPrime reset writes w w') (hw : w.Healthy D isPrime) (hok : w'.bdd.Ok) :
    w'.Healthy D isPrime := by
  have ⟨⟨σ, hc⟩, ho⟩ := hw
  cases h with
  | act s' h => exact .preserved ho hc (h.preserved hc.good hc.signed hc.leveled)
  | delref n hn => exact hw.delref hn
  | setvarnum num => exact hw.setvarnum num hok
  | reorder levels s' h => exact hw.reordered h
  | replace p r res s' hp hr h => exact .preserved ho hc (bddReplace_preserved hc ho hp hr h)
  | veccompose p r res s' hp hr h =>
    exact .preserved ho hc (bddVeccompose_preserved hc ho hp hr h)
  | newpair pair _ hnew hroom => exact hw.newpair hnew hroom
  | setpair pair oldvar newvar _ _ => exact hw.setpair pair oldvar newvar
  | setbddpair pair oldvar newvar _ _ hfit => exact hw.setbddpair pair oldvar hfit
  | resetpair p hp _ _ => exact hw.resetpair hp
  | freepair pair _ _ => exact hw.freepair pair

/-- A call that leaves the pairs alone. -/
theorem Healthy.act (hw : w.Healthy D isPrime) (h : Act D isPrime w.bdd s') (hok : s'.Ok) :
    Healthy D isPrime { w with bdd := s' } :=
  (show Action D isPrime (fun _ => True) (fun _ => True) w { w with bdd := s' } from
    .act s' h).healthy hw hok

/-! ### The number of variables -/

theorem refresh_env (w : Package P) (pair : ℕ) : (w.refresh pair).bdd.env = w.bdd.env := by
  obtain ⟨C, hC⟩ := updatePairsid_bdd w
  show w.updatePairsid.2.bdd.env = w.bdd.env
  rw [hC]

theorem setEntry_env (w : Package P) (pair level new : ℕ) :
    (w.setEntry pair level new).bdd.env = w.bdd.env := by
  rw [setEntry_eq]
  exact refresh_env _ pair

theorem bddDelref_env (s : BddState P) (n : ℕ) : (bddDelref s n).env = s.env := by
  unfold bddDelref changeref decref
  dsimp only
  split_ifs <;> rfl

theorem bddAddref_env (s : BddState P) (n : ℕ) : (bddAddref s n).env = s.env := by
  unfold bddAddref changeref incref
  dsimp only
  split_ifs <;> rfl

theorem bddIthvar_env (s : BddState P) (v : ℕ) : (bddIthvar s v).2.env = s.env := by
  unfold bddIthvar
  split_ifs <;> rfl

theorem setpair_env (w : Package P) (pair : ℕ) (oldvar newvar : ℤ) :
    (w.setpair pair oldvar newvar).2.bdd.env = w.bdd.env := by
  unfold Package.setpair
  cases w.pairs.lookup pair with
  | none => rfl
  | some p =>
    dsimp only
    split_ifs with hold hnew
    · rfl
    · rfl
    · refine (setEntry_env _ _ _ _).trans ((bddIthvar_env _ _).trans ?_)
      exact bddDelref_env w.bdd _

theorem setbddpair_env (w : Package P) (pair : ℕ) (oldvar : ℤ) (newvar : ℕ) :
    (w.setbddpair pair oldvar newvar).2.bdd.env = w.bdd.env := by
  unfold Package.setbddpair
  cases w.pairs.lookup pair with
  | none => rfl
  | some p =>
    dsimp only
    split_ifs with hsize hfree hold
    · rfl
    · rfl
    · rfl
    · exact (setEntry_env _ _ _ _).trans ((bddAddref_env _ newvar).trans (bddDelref_env _ _))

theorem freepair_env (w : Package P) (pair : ℕ) : (w.freepair pair).bdd.env = w.bdd.env := by
  unfold Package.freepair
  cases w.pairs.lookup pair with
  | none => rfl
  | some p =>
    exact CountedLoop.forUp_induct (f := fun n s => bddDelref s (p.result n))
      (fun _ s => s.env = w.bdd.env) rfl fun n s _ _ h => (bddDelref_env s _).trans h

/-- No call takes variables away. -/
theorem Action.varnum {reset : BddState P → Prop} {writes : ℕ → Prop}
    (h : Action D isPrime reset writes w w') (hw : w.Healthy D isPrime) (hok : w'.bdd.Ok) :
    w.bdd.env.bddvarnum ≤ w'.bdd.env.bddvarnum := by
  obtain ⟨⟨σ, hc⟩, ho⟩ := hw
  have hsame : ∀ {u : Package P}, u.bdd.env = w.bdd.env →
      w.bdd.env.bddvarnum ≤ u.bdd.env.bddvarnum := fun henv => by rw [henv]
  cases h with
  | act s' h => exact (h.preserved hc.good hc.signed hc.leveled).keeps.varnum.ge
  | delref n hn => exact hsame (bddDelref_env w.bdd n)
  | setvarnum num =>
    have hspec : SetvarnumSpec (full D isPrime σ w.bdd.env.bddvarnum) w.bdd
        (bddSetvarnum D isPrime w.bdd num) := bddSetvarnum_spec hc.good num hok
    exact hspec.grows.varnum
  | reorder levels s' h =>
    rw [reordered_bdd]
    exact h.varnum.ge
  | replace p r res s' hp hr h => exact (bddReplace_preserved hc ho hp hr h).keeps.varnum.ge
  | veccompose p r res s' hp hr h =>
    exact (bddVeccompose_preserved hc ho hp hr h).keeps.varnum.ge
  | newpair pair _ _ _ =>
    obtain ⟨C, hC⟩ := updatePairsid_bdd w
    exact hsame (congrArg (·.env) hC)
  | setpair pair oldvar newvar _ _ => exact hsame (setpair_env w pair oldvar newvar)
  | setbddpair pair oldvar newvar _ _ _ =>
    exact hsame (setbddpair_env w pair oldvar newvar)
  | resetpair p _ _ _ => exact hsame ((refresh_env _ _).trans rfl)
  | freepair pair _ _ => exact hsame (freepair_env w pair)

/-- The states of a session in which nothing was reported so far. -/
inductive Reached (D : MtbddDomain P) (isPrime : ℕ → Bool) (reset : BddState P → Prop) :
    Package P → Prop
  | init (size cachesize : ℕ) (h : GoodSize isPrime size) :
      Reached D isPrime reset ⟨bddInit size cachesize, [], 0⟩
  | step {w w' : Package P} (before : Reached D isPrime reset w)
      (h : Action D isPrime reset (fun _ => True) w w') (hok : w'.bdd.Ok) :
      Reached D isPrime reset w'

/-- Only `bdd_setvarnum` adds variables. -/
theorem Action.varnum_eq {reset : BddState P → Prop} {writes : ℕ → Prop}
    (h : Action D isPrime reset writes w w') (hw : w.Healthy D isPrime) :
    w'.bdd.env.bddvarnum = w.bdd.env.bddvarnum ∨ ∃ num, w' = w.setvarnum D isPrime num := by
  obtain ⟨⟨σ, hc⟩, ho⟩ := hw
  have hsame : ∀ {u : Package P}, u.bdd.env = w.bdd.env → u.bdd.env.bddvarnum = w.bdd.env.bddvarnum ∨
      ∃ num, u = w.setvarnum D isPrime num := fun henv => Or.inl (by rw [henv])
  cases h with
  | act s' h => exact Or.inl (h.preserved hc.good hc.signed hc.leveled).keeps.varnum
  | delref n hn => exact hsame (bddDelref_env w.bdd n)
  | setvarnum num => exact Or.inr ⟨num, rfl⟩
  | reorder levels s' h =>
    rw [reordered_bdd]
    exact Or.inl h.varnum
  | replace p r res s' hp hr h => exact Or.inl (bddReplace_preserved hc ho hp hr h).keeps.varnum
  | veccompose p r res s' hp hr h =>
    exact Or.inl (bddVeccompose_preserved hc ho hp hr h).keeps.varnum
  | newpair pair _ _ _ =>
    obtain ⟨C, hC⟩ := updatePairsid_bdd w
    exact hsame (congrArg (·.env) hC)
  | setpair pair oldvar newvar _ _ => exact hsame (setpair_env w pair oldvar newvar)
  | setbddpair pair oldvar newvar _ _ _ => exact hsame (setbddpair_env w pair oldvar newvar)
  | resetpair p _ _ _ => exact hsame ((refresh_env _ _).trans rfl)
  | freepair pair _ _ => exact hsame (freepair_env w pair)

theorem bddInit_healthy {size : ℕ} (cachesize : ℕ) (hsize : GoodSize isPrime size) :
    Healthy D isPrime (⟨bddInit size cachesize, [], 0⟩ : Package P) := by
  refine ⟨⟨fun _ => none, {
    good := bddInit_good cachesize hsize
    signed := fun k hk => absurd hk (Nat.not_lt_zero k)
    leveled := fun n hn => by
      match n, hn with
      | 0, _ => rfl
      | 1, _ => rfl
    apart := .nil
    issued := fun p hp => absurd hp List.not_mem_nil
    bound := show 0 < maxPairsid by decide
    room := show 0 < maxPairsid by decide
    shaped := fun p hp => absurd hp List.not_mem_nil
    fresh := fun _ _ => rfl
    linked := fun p hp => absurd hp List.not_mem_nil }⟩, fun n _ => Or.inr (Nat.zero_le _)⟩

theorem Reached.healthy {reset : BddState P → Prop} (h : Reached D isPrime reset w) :
    w.Healthy D isPrime := by
  induction h with
  | init size cachesize h => exact bddInit_healthy cachesize h
  | step _ h hok ih => exact h.healthy ih hok

/-- There never are as many variables as `MAXVAR`. -/
theorem Reached.varnum_lt {reset : BddState P → Prop} (h : Reached D isPrime reset w) :
    w.bdd.env.bddvarnum < maxvar := by
  induction h with
  | init size cachesize h => exact show 0 < maxvar by decide
  | @step w w' before h hok ih =>
    rcases h.varnum_eq before.healthy with heq | ⟨num, rfl⟩
    · rw [heq]
      exact ih
    · obtain ⟨⟨σ, hc⟩, -⟩ := before.healthy
      show (bddSetvarnum D isPrime w.bdd num).env.bddvarnum < maxvar
      by_cases hnum : w.bdd.env.bddvarnum < num ∧ num < maxvar
      · exact (bddSetvarnum_varnum hc.good hnum.1 hnum.2 hok).trans_lt hnum.2
      · unfold bddSetvarnum
        split_ifs
        · exact ih
        · exact ih
        · exact ih
        · omega

theorem Reached.ok {reset : BddState P → Prop} (h : Reached D isPrime reset w) : w.bdd.Ok := by
  cases h with
  | init size cachesize h => rfl
  | step _ _ hok => exact hok

/-! ## A session with two variables -/

/-- The variables are nodes `2` and `4`, and there are no pairs. -/
def twoVariables : Package UInt32 := ⟨Bdd.twoVariables, [], 0⟩

theorem twoVariables_reached (reset : BddState UInt32 → Prop) :
    Reached intDomain trialDivision reset twoVariables :=
  .step (.init 11 3 ⟨by decide, by decide, by decide⟩) (.setvarnum 2) twoVariables_ok

end Package

end MoToBuddy.Bdd
