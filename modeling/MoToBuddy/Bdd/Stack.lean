import MoToBuddy.Bdd.Table

/-!
# What the reference stack protects

A collection marks from the entries of the reference stack, so it keeps them whatever the table looks
like. The other functions that make nodes free no slot.
-/

namespace MoToBuddy.Bdd

open CountedLoop Marking

variable {P : Type} {D : MtbddDomain P} {isPrime : ℕ → Bool} {s s' s'' : BddState P} {i n : ℕ}

/-- The size of a table: `bdd_init` and `bdd_noderesize` give it an odd prime. -/
def PrimeSize (isPrime : ℕ → Bool) (size : ℕ) : Prop :=
  2 ≤ size ∧ size % 2 = 1 ∧ isPrime size = true

/-- The reference stack, the nodes on it and the check of the children are as they were. -/
structure Untouched (isPrime : ℕ → Bool) (s s' : BddState P) : Prop where
  refstack : s'.bddrefstack = s.bddrefstack
  checkSameChildren : s'.checkSameChildren = s.checkSameChildren
  nodesize : PrimeSize isPrime s.bddnodesize →
    s.bddnodesize ≤ s'.bddnodesize ∧ PrimeSize isPrime s'.bddnodesize
  live : PrimeSize isPrime s.bddnodesize → ∀ i ∈ s.bddrefstack, i < s.bddnodesize →
    s.live i = true → s'.live i = true

namespace Untouched

theorem trans (h : Untouched isPrime s s') (h' : Untouched isPrime s' s'') :
    Untouched isPrime s s'' := by
  refine ⟨h'.refstack.trans h.refstack, h'.checkSameChildren.trans h.checkSameChildren,
    fun hp => ?_, fun hp i hi hlt hl => ?_⟩
  · obtain ⟨hle, hp'⟩ := h.nodesize hp
    obtain ⟨hle', hp''⟩ := h'.nodesize hp'
    exact ⟨hle.trans hle', hp''⟩
  · obtain ⟨hle, hp'⟩ := h.nodesize hp
    exact h'.live hp' i (h.refstack ▸ hi) (by omega) (h.live hp i hi hlt hl)

/-- No slot is freed. -/
theorem of_low (hstack : s'.bddrefstack = s.bddrefstack)
    (hcheck : s'.checkSameChildren = s.checkSameChildren)
    (hsize : PrimeSize isPrime s.bddnodesize →
      s.bddnodesize ≤ s'.bddnodesize ∧ PrimeSize isPrime s'.bddnodesize)
    (hlow : ∀ i < s.bddnodesize, (s.bddnodes i).low.isSome → (s'.bddnodes i).low.isSome) :
    Untouched isPrime s s' := by
  refine ⟨hstack, hcheck, hsize, fun _ i _ hlt hl => ?_⟩
  have hl' : 2 ≤ i ∧ (s.bddnodes i).low.isSome = true := by
    simpa [BddState.live, BddState.key, BddNode.key] using hl
  simpa [BddState.live, BddState.key, BddNode.key] using
    And.intro hl'.1 (hlow i hlt hl'.2)

/-- The slots are not concerned. -/
theorem of_nodes (hstack : s'.bddrefstack = s.bddrefstack)
    (hcheck : s'.checkSameChildren = s.checkSameChildren) (hsize : s'.bddnodesize = s.bddnodesize)
    (hnodes : s'.bddnodes = s.bddnodes) : Untouched isPrime s s' := by
  refine of_low hstack hcheck (fun h => ?_) fun i _ h => ?_
  · rw [hsize]
    exact ⟨Nat.le_refl _, h⟩
  · rw [hnodes]
    exact h

theorem refl (s : BddState P) : Untouched isPrime s s := of_nodes rfl rfl rfl rfl

/-- A slot that is written is not freed. -/
theorem setNode {node : BddNode}
    (h : node.low.isSome = true ∨ node.low = (s.bddnodes n).low) : Untouched isPrime s (s.setNode n node) := by
  refine of_low rfl rfl (fun h => ⟨Nat.le_refl _, h⟩) fun i _ hi => ?_
  simp only [BddState.setNode, Function.update_apply]
  split_ifs with hin
  · rcases h with h | h
    · exact h
    · rw [h, ← hin]
      exact hi
  · exact hi

end Untouched

/-! ## Collection -/

theorem gbcSweepStep_rest (s : BddState P) (n : ℕ) : SameRest s (gbcSweepStep D n s) := by
  unfold gbcSweepStep
  dsimp only
  split_ifs
  · exact ⟨rfl, rfl, rfl, rfl, rfl, rfl⟩
  · exact ⟨rfl, rfl, rfl, rfl, rfl, rfl⟩
  · exact ⟨rfl, rfl, rfl, rfl, rfl, rfl⟩

/-- The sweep of a slot leaves the other ones alone. -/
theorem gbcSweepStep_other (s : BddState P) (hi : i ≠ n) :
    ((gbcSweepStep D n s).bddnodes i).body = (s.bddnodes i).body := by
  have hset : ∀ node, (s.setNode n node).bddnodes i = s.bddnodes i := by
    intro node
    exact Function.update_of_ne hi _ _
  unfold gbcSweepStep
  dsimp only
  split_ifs
  · rw [body_chainIn, hset]
  · rw [body_release, if_neg hi]
  · rw [body_release, if_neg hi]

/-- A marked node is kept. -/
theorem gbcSweepStep_marked (hmark : (s.bddnodes n).mark = true) (hl : s.live n = true) :
    (gbcSweepStep D n s).key n = s.key n := by
  have hlow : (s.bddnodes n).low.isSome = true := by
    simpa [BddState.live, BddState.key, BddNode.key] using (Bool.and_eq_true_iff.mp hl).2
  unfold gbcSweepStep
  dsimp only
  rw [hmark, hlow, Bool.and_true, if_pos rfl]
  have hset : (s.setNode n { s.bddnodes n with mark := false }).bddnodes n =
      { s.bddnodes n with mark := false } := Function.update_self ..
  have hkey := BddNode.key_of_body (body_chainIn (s.setNode n { s.bddnodes n with mark := false }) n
    ((s.setNode n { s.bddnodes n with mark := false }).bucket D n) n)
  rw [hset] at hkey
  exact hkey

/-- A node on the reference stack survives any collection. -/
theorem bddGbc_key (s : BddState P) (hi : i ∈ s.bddrefstack) (hl : s.live i = true) :
    (bddGbc D s).key i = s.key i := by
  have hmarked : gbcMarks s i = true :=
    markAll_root s.live s.succ (List.mem_append_left _ (List.mem_reverse.mpr hi)) hl s.marks
  have hloop := forDown_induct (a := 2) (k := s.bddnodesize - 2) (f := gbcSweepStep D)
    (s := gbcMarked s)
    (fun n t => t.key i = s.key i ∧ (i < n → (t.bddnodes i).mark = true)) ?_ ?_
  · rw [bddGbc_eq]
    exact hloop.1
  · exact ⟨clearBuckets_key s s.bddnodesize i, fun _ => hmarked⟩
  · rintro n t - - ⟨hkey, hmark⟩
    by_cases hin : i = n
    · subst hin
      have hl' : t.live i = true := by rw [BddState.live_congr hkey, hl]
      exact ⟨(gbcSweepStep_marked (hmark (Nat.lt_succ_self i)) hl').trans hkey,
        fun h => absurd h (Nat.lt_irrefl i)⟩
    · have hbody := gbcSweepStep_other (D := D) t hin
      have hmark' := congrArg BddNode.mark hbody
      dsimp only [BddNode.body] at hmark'
      refine ⟨(BddNode.key_of_body hbody).trans hkey, fun h => ?_⟩
      rw [hmark']
      exact hmark (by omega)

theorem bddGbc_rest (D : MtbddDomain P) (s : BddState P) : SameRest s (bddGbc D s) := by
  rw [bddGbc_eq]
  have hloop := forDown_induct (a := 2) (k := s.bddnodesize - 2) (f := gbcSweepStep D)
    (s := gbcMarked s) (fun _ t => SameRest s t) ⟨rfl, rfl, rfl, rfl, rfl, rfl⟩ ?_
  · exact { hloop with }
  · intro n t _ _ ht
    have h := gbcSweepStep_rest (D := D) t n
    exact ⟨h.nodesize.trans ht.nodesize, h.refstack.trans ht.refstack,
      h.checkSameChildren.trans ht.checkSameChildren, h.errorcond.trans ht.errorcond,
      h.env.trans ht.env, h.errors.trans ht.errors⟩

theorem bddGbc_untouched (D : MtbddDomain P) (s : BddState P) :
    Untouched isPrime s (bddGbc D s) := by
  have hrest := bddGbc_rest D s
  refine ⟨hrest.refstack, hrest.checkSameChildren, fun h => ?_, fun _ i hi _ hl => ?_⟩
  · rw [hrest.nodesize]
    exact ⟨Nat.le_refl _, h⟩
  · rw [BddState.live_congr (bddGbc_key s hi hl)]
    exact hl

/-! ## Growth -/

theorem rehashStep_rest (s : BddState P) (n : ℕ) : SameRest s (rehashStep D n s) := by
  unfold rehashStep
  split_ifs
  · exact ⟨rfl, rfl, rfl, rfl, rfl, rfl⟩
  · exact ⟨rfl, rfl, rfl, rfl, rfl, rfl⟩

theorem rehashStep_body (s : BddState P) (n i : ℕ) :
    ((rehashStep D n s).bddnodes i).body = (s.bddnodes i).body := by
  unfold rehashStep
  split_ifs
  · rw [body_release]
    split_ifs with h
    · rw [h]
    · rfl
  · rw [body_chainIn]

theorem bddGbcRehash_kept (s : BddState P) : SameRest s (bddGbcRehash D s) ∧
    ∀ i, ((bddGbcRehash D s).bddnodes i).body = (s.bddnodes i).body := by
  unfold bddGbcRehash
  apply forDown_induct (fun _ t => SameRest s t ∧ ∀ i, (t.bddnodes i).body = (s.bddnodes i).body)
  · exact ⟨⟨rfl, rfl, rfl, rfl, rfl, rfl⟩, fun _ => rfl⟩
  · rintro n t - - ⟨ht, hbody⟩
    have h := rehashStep_rest (D := D) t n
    refine ⟨⟨h.nodesize.trans ht.nodesize, h.refstack.trans ht.refstack,
      h.checkSameChildren.trans ht.checkSameChildren, h.errorcond.trans ht.errorcond,
      h.env.trans ht.env, h.errors.trans ht.errors⟩, fun i => ?_⟩
    rw [rehashStep_body, hbody]

/-- A table that grows keeps its nodes. -/
theorem bddNoderesize_untouched (D : MtbddDomain P) (s : BddState P) :
    Untouched isPrime s (bddNoderesize D isPrime s) := by
  unfold bddNoderesize
  split_ifs with hlimit
  · exact .refl s
  · obtain ⟨hrest, hbody⟩ := bddGbcRehash_kept (D := D) (s.extend (resizeTarget isPrime s))
    refine .of_low hrest.refstack hrest.checkSameChildren (fun h => ?_) fun i hi hlow => ?_
    · show _ ≤ (bddGbcRehash D _).bddnodesize ∧ PrimeSize isPrime (bddGbcRehash D _).bddnodesize
      rw [hrest.nodesize]
      obtain ⟨hle, hodd, hprime⟩ := resizeTarget_spec h hlimit
      exact ⟨hle, h.1.trans hle, hodd, hprime⟩
    · have hkey := congrArg BddKey.low (BddNode.key_of_body (hbody i))
      dsimp only [BddNode.key] at hkey
      show ((bddGbcRehash D (s.extend (resizeTarget isPrime s))).bddnodes i).low.isSome = true
      rw [hkey]
      simp only [BddState.extend, if_pos hi]
      exact hlow

/-! ## `bdd_makenode` -/

/-- A slot that is filled is not free any more, and no other slot is. -/
theorem fill_untouched (s : BddState P) (level low high b : ℕ) :
    Untouched isPrime s (s.fill level low high b) := by
  refine .of_low rfl rfl (fun h => ⟨Nat.le_refl _, h⟩) fun i _ hi => ?_
  have hlow : ∀ (t : BddState P) n, ((t.chainIn n b).bddnodes i).low = (t.bddnodes i).low := by
    intro t n
    have h := congrArg BddNode.low (body_chainIn t n b i)
    exact h
  unfold BddState.fill
  dsimp only
  rw [hlow]
  simp only [BddState.setNode, Function.update_apply]
  split_ifs
  · rfl
  · exact hi

theorem makeRoom_untouched (D : MtbddDomain P) (s : BddState P) :
    Untouched isPrime s (makeRoom D isPrime s) := by
  unfold makeRoom
  dsimp only
  split_ifs
  · exact (bddGbc_untouched D s).trans (bddNoderesize_untouched D _)
  · exact bddGbc_untouched D s

theorem bddMakenode_untouched (D : MtbddDomain P) (s : BddState P) (level low high : ℕ) :
    Untouched isPrime s (bddMakenode D isPrime s level low high).2 := by
  have hinsert : ∀ s : BddState P, Untouched isPrime s (bddInsert s level low high).2 :=
    fun s => fill_untouched s _ low high _
  unfold bddMakenode
  dsimp only
  generalize (if (decide (level ≠ maxlevel) || !D.domaintype.notShort) = true then
    Chained.search _ _ _ _ else 0) = res
  split_ifs
  · exact .refl s
  · exact .refl s
  · exact hinsert s
  · exact .refl s
  · have hroom : Untouched isPrime s (makeRoom D isPrime s) := makeRoom_untouched D s
    exact ⟨hroom.refstack, hroom.checkSameChildren, hroom.nodesize, hroom.live⟩
  · exact (makeRoom_untouched D s).trans (hinsert _)

end MoToBuddy.Bdd
