import MoToBuddy.Bdd.Combinators

/-!
# Recursions between two calls

The recursions change neither the switch nor the check of the children. They call nothing, and only
`bdd_makenode` jumps.
-/

namespace MoToBuddy.Bdd

open Jumping Code

variable {P : Type} {D : MtbddDomain P} {isPrime : ℕ → Bool} {R : Reordering P isPrime} {α β : Type}

/-- The switch and the check of the children are as they were. -/
structure Steady (g g' : Globals P) : Prop where
  reorderdisabled : g'.reorderdisabled = g.reorderdisabled
  checkSameChildren : g'.kernel.checkSameChildren = g.kernel.checkSameChildren

theorem Steady.refl (g : Globals P) : Steady g g := ⟨rfl, rfl⟩

theorem Steady.trans (g g' g'' : Globals P) (h : Steady g g') (h' : Steady g' g'') : Steady g g'' :=
  ⟨h'.reorderdisabled.trans h.reorderdisabled, h'.checkSameChildren.trans h.checkSameChildren⟩

/-- A step that may jump. -/
def Command.jumps (D : MtbddDomain P) : Command → Globals P → Prop
  | .makenode level low high, g => g.interrupts D level low high = true
  | _, _ => False

abbrev Code.Calm (D : MtbddDomain P) (x : Code P α) : Prop := x.Quiet Steady (Command.jumps D)

theorem Globals.ready_of_interrupts {g : Globals P} {level low high : ℕ}
    (h : g.interrupts D level low high = true) : g.bddReorderReady = true :=
  (Bool.and_eq_true_iff.mp h).2

theorem Globals.enabled_of_ready {g : Globals P} (h : g.bddReorderReady = true) :
    g.reorderdisabled = false := by
  unfold Globals.bddReorderReady at h
  cases hdis : g.reorderdisabled with
  | false => rfl
  | true => simp [hdis] at h

/-- While reordering is disabled no step jumps. -/
theorem Command.enabled_of_jumps {c : Command} {g : Globals P} (h : c.jumps D g) :
    g.reorderdisabled = false := by
  cases c with
  | makenode level low high => exact Globals.enabled_of_ready (Globals.ready_of_interrupts h)
  | kernel | gbc | reorder => exact h.elim

theorem makenodeStep_steady (level low high : ℕ) (g : Globals P) :
    Steady g (makenodeStep D isPrime level low high g).globals := by
  unfold makenodeStep
  split_ifs
  · exact ⟨rfl, (bddGbc_rest D g.kernel).checkSameChildren⟩
  · have hmake : Untouched isPrime g.kernel (bddMakenode D isPrime g.kernel level low high).2 :=
      bddMakenode_untouched D g.kernel level low high
    exact ⟨rfl, hmake.checkSameChildren⟩

namespace Code.Calm

theorem ret (a : α) : Calm D (.ret a : Code P α) := trivial

theorem look (h : Globals P → α) : Calm D (Code.look h) :=
  ⟨fun g => ⟨.refl g, fun _ he => nomatch he⟩, fun _ => trivial⟩

theorem setGlobals {h : Globals P → Globals P} (hh : ∀ g, Steady g (h g)) :
    Calm D (Code.setGlobals h) :=
  ⟨fun g => ⟨hh g, fun _ he => nomatch he⟩, fun _ => trivial⟩

theorem update {h : BddState P → BddState P}
    (hh : ∀ s, (h s).checkSameChildren = s.checkSameChildren) : Calm D (Code.update h) :=
  setGlobals fun g => ⟨rfl, hh g.kernel⟩

theorem makenode (level low high : ℕ) : Calm D (Code.makenode D isPrime level low high) := by
  refine ⟨fun g => ⟨makenodeStep_steady level low high g, fun g' he => ?_⟩, fun _ => trivial⟩
  unfold makenodeStep at he
  split_ifs at he with hint
  exact hint

theorem bind {x : Code P α} {f : α → Code P β} (hx : Calm D x) (hf : ∀ a, Calm D (f a)) :
    Calm D (x >>= f) := Prog.Quiet.bind hx hf

end Code.Calm

theorem Disciplined.calm {n : ℕ} {p : α → ℕ} {x : Code P α}
    (h : Disciplined D isPrime R false n p x) : Calm D x := by
  generalize hc : false = c at h
  induction h with
  | ret a => exact .ret a
  | stuck => trivial
  | bind hx hf ihx ihf => exact (ihx hc).bind fun a => ihf a hc
  | look h => exact .look h
  | update hh => exact .update fun s => (hh s).checkSameChildren
  | makenode level low high => exact .makenode level low high
  | pushref x => exact .update fun _ => rfl
  | popref k => exact .update fun _ => rfl
  | virtualNode | virtualTarget | mtbdd | operator | reorder | disableReorder | enableReorder | setvarnum |
      extvarnum | support | satone | satoneset | fullsatone | gbc | kernel => exact nomatch hc

theorem checkresize_untouched (s : BddState P) : Untouched isPrime s (checkresize isPrime s) := by
  unfold checkresize operatorNoderesize
  split_ifs <;> exact .of_nodes rfl rfl rfl rfl

/-! ## The sections that run with reordering disabled -/

theorem addVars_calm (bdv k : ℕ) : Calm D (Code.addVars D isPrime bdv k) := by
  induction k with
  | zero => exact .ret true
  | succ k ih =>
    unfold Code.addVars
    refine .bind (.look _) fun v => .bind (.makenode v 0 1) fun pos => ?_
    refine .bind (.update fun _ => rfl) fun _ => .bind (.makenode v 1 0) fun neg => ?_
    refine .bind (.update fun _ => rfl) fun _ => .bind (.look _) fun failed => ?_
    split_ifs
    · exact .bind (.update fun _ => rfl) fun _ => .ret false
    · exact .bind (.update fun _ => rfl) fun _ => ih

theorem supportRec_check (fuel r : ℕ) (acc : BddState P × (ℕ → Bool) × ℕ) :
    (supportRec fuel r acc).1.checkSameChildren = acc.1.checkSameChildren := by
  induction fuel generalizing r acc with
  | zero => rfl
  | succ fuel ih =>
    unfold supportRec
    dsimp only
    split_ifs
    · rfl
    · rfl
    · rw [ih, ih]
      rfl

theorem bddUnmark_check (fuel i : ℕ) (s : BddState P) :
    (bddUnmark fuel i s).checkSameChildren = s.checkSameChildren := by
  induction fuel generalizing i s with
  | zero => rfl
  | succ fuel ih =>
    unfold bddUnmark
    dsimp only
    split_ifs
    · rfl
    · rfl
    · rw [ih, ih]
      rfl

theorem supportNodes_calm (support : ℕ → Bool) (supportMin k res : ℕ) :
    Calm D (Code.supportNodes D isPrime support supportMin k res) := by
  induction k generalizing res with
  | zero => exact .ret res
  | succ k ih =>
    unfold Code.supportNodes
    split_ifs
    · refine .bind (.update fun s => ?_) fun _ => .bind (.makenode _ 0 res) fun tmp => ?_
      · have hadd : Untouched isPrime s (bddAddref s res) := bddAddref_untouched s res
        exact hadd.checkSameChildren
      · refine .bind (.update fun s => ?_) fun _ => ih tmp
        have hdel : Untouched isPrime s (bddDelref s res) := bddDelref_untouched s res
        exact hdel.checkSameChildren
    · exact ih res

theorem makePushed_calm (level low high : ℕ) :
    Calm D (Code.makePushed D isPrime level low high) :=
  .bind (.makenode level low high) fun res => .bind (.update fun _ => rfl) fun _ => .ret res

theorem satoneRec_calm (fuel r : ℕ) : Calm D (Code.satoneRec D isPrime fuel r) := by
  induction fuel generalizing r with
  | zero => trivial
  | succ fuel ih =>
    unfold Code.satoneRec
    split_ifs
    · exact .ret r
    refine .bind (.look _) fun low => ?_
    split_ifs
    · refine .bind (.look _) fun high => .bind (ih high) fun res => .bind (.look _) fun level => ?_
      exact makePushed_calm level 0 res
    · refine .bind (.look _) fun low => .bind (ih low) fun res => .bind (.look _) fun level => ?_
      exact makePushed_calm level res 0

theorem satonesetRec_calm (satPolarity fuel r var : ℕ) :
    Calm D (Code.satonesetRec D isPrime satPolarity fuel r var) := by
  induction fuel generalizing r var with
  | zero => trivial
  | succ fuel ih =>
    -- the node on top of the one that the recursion returns
    have hnode : ∀ (r var : ℕ) (level : Globals P → ℕ) (low high : ℕ → ℕ), Calm D (do
        let res ← Code.satonesetRec D isPrime satPolarity fuel r var
        Code.makePushed D isPrime (← Code.look level) (low res) (high res)) :=
      fun r var level low high => .bind (ih r var) fun res => .bind (.look _) fun level =>
        makePushed_calm level (low res) (high res)
    unfold Code.satonesetRec
    split
    · exact .ret r
    refine .bind (.look _) fun s => ?_
    split_ifs
    · exact hnode _ _ _ (fun _ => 0) id
    · exact hnode _ _ _ id fun _ => 0
    · refine .bind (ih _ _) fun res => ?_
      exact .bind (.look _) fun level => makePushed_calm level 0 res
    · refine .bind (ih _ _) fun res => ?_
      exact .bind (.look _) fun level => makePushed_calm level res 0
    · exact hnode _ _ _ (fun _ => 0) id
    · exact hnode _ _ _ id fun _ => 0

theorem negateLevels_calm (first k res : ℕ) :
    Calm D (Code.negateLevels D isPrime first k res) := by
  induction k generalizing res with
  | zero => exact .ret res
  | succ k ih => exact .bind (makePushed_calm _ res 0) fun res => ih res

theorem fullsatoneRec_calm (fuel r : ℕ) : Calm D (Code.fullsatoneRec D isPrime fuel r) := by
  induction fuel generalizing r with
  | zero => trivial
  | succ fuel ih =>
    unfold Code.fullsatoneRec
    split_ifs
    · exact .ret r
    refine .bind (.look _) fun low => ?_
    split_ifs
    · refine .bind (.look _) fun low => .bind (ih low) fun res => .bind (.look _) fun s => ?_
      refine .bind (negateLevels_calm _ _ res) fun res => .bind (.look _) fun level => ?_
      exact makePushed_calm level res 0
    · refine .bind (.look _) fun high => .bind (ih high) fun res => .bind (.look _) fun s => ?_
      refine .bind (negateLevels_calm _ _ res) fun res => .bind (.look _) fun level => ?_
      exact makePushed_calm level 0 res

end MoToBuddy.Bdd
