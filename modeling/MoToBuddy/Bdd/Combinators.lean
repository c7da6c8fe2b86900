import MoToBuddy.Bdd.Programs

/-!
# The operations with callbacks (`mtbdd.c`, `mtbddop.cxx`)

`mtbdd_operation`, the cubes, the traversals and the swaps are disciplined when their callbacks are.
-/

namespace MoToBuddy.Bdd

open Jumping Code

variable {P : Type} {D : MtbddDomain P} {isPrime : ℕ → Bool} {R : Reordering P isPrime} {c : Bool} {n : ℕ} {β : Type}

/-- A count that changes, or does not. -/
theorem count_untouched (b : Prop) [Decidable b] (s : BddState P) (n count : ℕ) :
    Untouched isPrime s
      (if b then s.setNode n { s.bddnodes n with refcou := count } else s) := by
  split_ifs
  · exact .setNode (.inr rfl)
  · exact .refl s

theorem changeref_untouched {count : BddState P → ℕ → BddState P}
    (hcount : ∀ s n, Untouched isPrime s (count s n)) (s : BddState P) (root : ℕ) :
    Untouched isPrime s (changeref count s root) := by
  unfold changeref
  split_ifs
  · exact .refl s
  · exact .of_nodes rfl rfl rfl rfl
  · exact .of_nodes rfl rfl rfl rfl
  · exact hcount s root

theorem bddAddref_untouched (s : BddState P) (root : ℕ) :
    Untouched isPrime s (bddAddref s root) :=
  changeref_untouched (fun s n => count_untouched _ s n _) s root

theorem bddDelref_untouched (s : BddState P) (root : ℕ) :
    Untouched isPrime s (bddDelref s root) := by
  apply changeref_untouched
  intro s n
  split_ifs
  · have herror : Untouched isPrime s (s.error .break) := .of_nodes rfl rfl rfl rfl
    exact herror.trans (count_untouched _ (s.error .break) n _)
  · exact count_untouched _ s n _

/-! ## `mtbdd_operation` -/

theorem atTarget_disciplined {op : ℕ → ℕ → Code P ℕ}
    (h : ∀ n low high, Disciplined D isPrime R c n (fun _ => n) (op low high)) (n target : ℕ) :
    Disciplined D isPrime R c n (fun _ => n) (Code.atTarget op target) := by
  unfold Code.atTarget
  apply Disciplined.bind (.lowOf target)
  intro low
  apply Disciplined.bind (.pushref low)
  intro _
  apply Disciplined.bind (.highOf target)
  intro high
  apply Disciplined.bind (.pushref high)
  intro _
  apply Disciplined.bind (.readref 2)
  intro low
  apply Disciplined.bind (.readref 1)
  intro high
  apply Disciplined.bind (h (n + 1 + 1) low high)
  intro res
  apply Disciplined.bind (.popref 2 (by omega))
  intro _
  exact .pure res

/-- The node of the topmost entry and one more child. -/
theorem joined_disciplined {level high : ℕ} {q : β → ℕ} {f : ℕ → Code P β}
    (hf : ∀ res, Disciplined D isPrime R c n q (f res)) :
    Disciplined D isPrime R c (n + 1) q (do
      Code.pushref high
      let low ← Code.readref 2
      let high ← Code.readref 1
      let res ← Code.makenode D isPrime level low high
      Code.popref 2
      f res) := by
  apply Disciplined.bind (.pushref high)
  intro _
  apply Disciplined.bind (.readref 2)
  intro low
  apply Disciplined.bind (.readref 1)
  intro high
  apply Disciplined.bind (.makenode level low high)
  intro res
  apply Disciplined.bind (.popref 2 (by omega))
  intro _
  exact hf res

theorem operationRec_disciplined {key : ℕ → UInt32 → CacheKey} {op : ℕ → ℕ → ℕ → Code P ℕ}
    (h : ∀ n c l r, Disciplined D isPrime R true n (fun _ => n) (op c l r)) (fuel n operand : ℕ)
    (control : ℕ) (controls : List ℕ) : Disciplined D isPrime R true n (fun _ => n)
      (Code.operationRec D isPrime key op fuel operand control controls) := by
  induction fuel generalizing n operand control controls with
  | zero => exact .stuck
  | succ fuel ih =>
    unfold Code.operationRec
    apply Disciplined.checka
    split_ifs
    · exact .pure 0
    apply Disciplined.memoUnless
    apply Disciplined.bind (.virtualTarget control operand)
    intro target
    apply Disciplined.bind (.look _)
    intro level
    split_ifs
    · cases controls with
      | nil => exact .bind (atTarget_disciplined (fun n => h n control) n target) fun _ => .pure _
      | cons next rest =>
        dsimp only
        apply Disciplined.bind (.lowOf target)
        intro low
        apply Disciplined.bind (.pushref low)
        intro _
        apply Disciplined.bind (.highOf target)
        intro high
        apply Disciplined.bind (ih (n + 1) high next rest)
        intro high
        exact joined_disciplined fun _ => .pure _
    · apply Disciplined.bind (.lowOf target)
      intro oldLow
      apply Disciplined.bind (.highOf target)
      intro oldHigh
      apply Disciplined.bind (ih n oldLow control controls)
      intro low
      apply Disciplined.bind (.pushref low)
      intro _
      apply Disciplined.bind (.highOf target)
      intro high
      apply Disciplined.bind (ih (n + 1) high control controls)
      intro high
      apply Disciplined.bind (.pushref high)
      intro _
      apply Disciplined.bind (.readref 2)
      intro low
      apply Disciplined.bind (.readref 1)
      intro high
      have hdone : ∀ res : ℕ, Disciplined D isPrime R true (n + 1 + 1) (fun _ => n) (do
          Code.popref 2
          return (res, false)) := fun res => .bind (.popref 2 (by omega)) fun _ => .pure _
      dsimp only
      split_ifs
      · exact .bind (.pure target) hdone
      · exact .bind (.look _) fun level => .bind (.makenode level low high) hdone
    · exact .pure _

theorem mtbddOperation_disciplined (operand control : ℕ) (controls : List ℕ)
    (op : Option (UInt32 × (ℕ → ℕ → ℕ → Code P ℕ)))
    (h : ∀ f, op = some f → ∀ n c l r, Disciplined D isPrime R true n (fun _ => n) (f.2 c l r)) :
    Disciplined D isPrime R true n (fun _ => n)
      (Code.mtbddOperation D isPrime operand control controls op) := by
  apply Disciplined.checka
  split_ifs
  · exact .pure 0
  · exact withOp_disciplined fun f hf =>
      operationRec_disciplined (h f hf) depth n operand control controls

theorem mtbddOperationParam_disciplined (operand control : ℕ) (controls : List ℕ)
    (op : Option (UInt32 × (ℕ → ℕ → ℕ → UInt64 → Code P ℕ))) (param : UInt64)
    (h : ∀ f, op = some f → ∀ n c l r,
      Disciplined D isPrime R true n (fun _ => n) (f.2 c l r param)) :
    Disciplined D isPrime R true n (fun _ => n)
      (Code.mtbddOperationParam D isPrime operand control controls op param) := by
  apply Disciplined.checka
  split_ifs
  · exact .pure 0
  · exact withOp_disciplined fun f hf =>
      operationRec_disciplined (h f hf) depth n operand control controls

theorem operationGuardedRec_disciplined {word : UInt32} {op : ℕ → ℕ → Code P (Bool × ℕ)}
    (h : ∀ n c m, Disciplined D isPrime R true n (fun _ => n) (op c m)) (fuel n operand : ℕ)
    (control : ℕ) (controls : List ℕ) : Disciplined D isPrime R true n (fun _ => n)
      (Code.operationGuardedRec D isPrime word op fuel operand control controls) := by
  have hadd : ∀ n m, Disciplined D isPrime R true n (fun _ => n) (Code.update (bddAddref · m)) :=
    fun n m => .update fun s => bddAddref_untouched s m
  have hdel : ∀ n m, Disciplined D isPrime R true n (fun _ => n) (Code.update (bddDelref · m)) :=
    fun n m => .update fun s => bddDelref_untouched s m
  induction fuel generalizing n operand control controls with
  | zero => exact .stuck
  | succ fuel ih =>
    unfold Code.operationGuardedRec
    apply Disciplined.checka
    split_ifs
    · exact .pure 0
    apply Disciplined.bind (h n control operand)
    intro guarded
    dsimp only
    split_ifs
    · exact .pure _
    apply Disciplined.memoUnless
    apply Disciplined.bind (.virtualTarget control operand)
    intro target
    apply Disciplined.bind (.look _)
    intro level
    split_ifs
    · cases controls with
      | nil =>
        dsimp only
        apply Disciplined.bind (.pushref target)
        intro _
        apply Disciplined.bind (.readref 1)
        intro child
        apply Disciplined.bind (h (n + 1) control child)
        intro r
        apply Disciplined.bind (.popref 1 (by omega))
        intro _
        apply Disciplined.bind (.look _)
        intro s
        split_ifs
        · exact .pure _
        · exact .pure _
      | cons next rest =>
        dsimp only
        apply Disciplined.bind (.lowOf target)
        intro low
        apply Disciplined.bind (.pushref low)
        intro _
        apply Disciplined.bind (.highOf target)
        intro high
        apply Disciplined.bind (ih (n + 1) high next rest)
        intro high
        apply Disciplined.bind (hadd (n + 1) high)
        intro _
        exact joined_disciplined fun res => .bind (hdel n high) fun _ => .pure _
    · apply Disciplined.bind (.lowOf target)
      intro oldLow
      apply Disciplined.bind (.highOf target)
      intro oldHigh
      apply Disciplined.bind (ih n oldLow control controls)
      intro low
      apply Disciplined.bind (hadd n low)
      intro _
      apply Disciplined.bind (.highOf target)
      intro high
      apply Disciplined.bind (ih n high control controls)
      intro high
      apply Disciplined.bind (hadd n high)
      intro _
      have hdone : ∀ res : ℕ, Disciplined D isPrime R true n (fun _ => n) (do
          Code.update (bddDelref · low)
          Code.update (bddDelref · high)
          return (res, false)) := fun res =>
        .bind (hdel n low) fun _ => .bind (hdel n high) fun _ => .pure _
      split_ifs
      · exact .bind (.pure target) hdone
      · exact .bind (.look _) fun level => .bind (.makenode level low high) hdone
    · exact .pure _

theorem mtbddOperationGuarded_disciplined (operand control : ℕ) (controls : List ℕ)
    (op : Option (UInt32 × (ℕ → ℕ → Code P (Bool × ℕ))))
    (h : ∀ f, op = some f → ∀ n c m, Disciplined D isPrime R true n (fun _ => n) (f.2 c m)) :
    Disciplined D isPrime R true n (fun _ => n)
      (Code.mtbddOperationGuarded D isPrime operand control controls op) := by
  apply Disciplined.checka
  split_ifs
  · exact .pure 0
  · exact withOp_disciplined fun f hf =>
      operationGuardedRec_disciplined (h f hf) depth n operand control controls

/-! ## Cubes -/

theorem mtbddCube2_disciplined (value : ℕ) (vars : ℕ → ℕ) (leaf1 leaf0 i n result : ℕ) :
    Disciplined D isPrime R c n (fun _ => n)
      (Code.mtbddCube2 D isPrime value vars leaf1 leaf0 i result) := by
  induction i generalizing result with
  | zero => exact .pure result
  | succ i ih =>
    unfold Code.mtbddCube2
    apply Disciplined.bind (.look _)
    intro level
    apply Disciplined.bind (.pushref result)
    intro _
    apply Disciplined.bind (.readref 1)
    intro child
    have hdone : ∀ res : ℕ, Disciplined D isPrime R c (n + 1) (fun _ => n) (do
        Code.popref 1
        Code.mtbddCube2 D isPrime value vars leaf1 leaf0 i res) := fun res =>
      .bind (.popref 1 (by omega)) fun _ => ih res
    split_ifs
    · exact .bind (.makenode level leaf0 child) hdone
    · exact .bind (.makenode level child leaf0) hdone

/-! ## Traversals -/

theorem aboveRoot_disciplined (root : ℕ) :
    Disciplined D isPrime R c n (fun _ => n) (Code.aboveRoot root : Code P ℤ) :=
  .bind (.look _) fun _ => .pure _

theorem nodeOfTop_disciplined (m : ℕ) (lowFirst : Bool) :
    Disciplined D isPrime R c (n + 1 + 1) (fun _ => n) (Code.nodeOfTop D isPrime m lowFirst) := by
  unfold Code.nodeOfTop
  apply Disciplined.bind (.readref 2)
  intro first
  apply Disciplined.bind (.readref 1)
  intro second
  apply Disciplined.bind (.levelOf m)
  intro level
  have hdone : ∀ res : ℕ, Disciplined D isPrime R c (n + 1 + 1) (fun _ => n) (do
      Code.popref 2
      pure res) := fun res => .bind (.popref 2 (by omega)) fun _ => .pure res
  dsimp only
  split_ifs
  · exact .bind (.makenode level first second) hdone
  · exact .bind (.makenode level second first) hdone

/-- Two children in the order of their calls, and their node. -/
theorem twoCalls_disciplined {first second : Code P ℕ} (m : ℕ) (lowFirst : Bool)
    (hfirst : ∀ n, Disciplined D isPrime R c n (fun _ => n) first)
    (hsecond : ∀ n, Disciplined D isPrime R c n (fun _ => n) second) :
    Disciplined D isPrime R c n (fun _ => n) (do
      Code.pushref (← first)
      Code.pushref (← second)
      Code.nodeOfTop D isPrime m lowFirst) := by
  apply Disciplined.bind (hfirst n)
  intro a
  apply Disciplined.bind (.pushref a)
  intro _
  apply Disciplined.bind (hsecond (n + 1))
  intro b
  apply Disciplined.bind (.pushref b)
  intro _
  exact nodeOfTop_disciplined m lowFirst

theorem visit_disciplined {targetLevel : ℕ} {action : ℕ → Code P ℕ} {pref actionOn : Branch}
    {self : ℕ → ℤ → Code P ℕ}
    (haction : ∀ n m, Disciplined D isPrime R c n (fun _ => n) (action m))
    (hself : ∀ n m l, Disciplined D isPrime R c n (fun _ => n) (self m l)) (m : ℕ) :
    Disciplined D isPrime R c n (fun _ => n)
      (Code.visit D isPrime targetLevel action pref actionOn self m) := by
  have hlow : ∀ n, Disciplined D isPrime R c n (fun _ => n)
      (do self (← Code.lowOf m) (← Code.levelOf m)) := fun n =>
    .bind (.lowOf m) fun a => .bind (.levelOf m) fun l => hself n a l
  have hhigh : ∀ n, Disciplined D isPrime R c n (fun _ => n)
      (do self (← Code.highOf m) (← Code.levelOf m)) := fun n =>
    .bind (.highOf m) fun a => .bind (.levelOf m) fun l => hself n a l
  unfold Code.visit
  apply Disciplined.bind (.levelOf m)
  intro level
  split_ifs
  · have hactionLow : ∀ n, Disciplined D isPrime R c n (fun _ => n)
        (do action (← Code.lowOf m)) := fun n => .bind (.lowOf m) fun a => haction n a
    have hactionHigh : ∀ n, Disciplined D isPrime R c n (fun _ => n)
        (do action (← Code.highOf m)) := fun n => .bind (.highOf m) fun a => haction n a
    cases actionOn with
    | L => exact twoCalls_disciplined m false (fun _ => .highOf m) hactionLow
    | R => exact twoCalls_disciplined m true (fun _ => .lowOf m) hactionHigh
    | LR | RL | ITSELF => exact haction n m
  · cases pref with
    | R => exact twoCalls_disciplined m true (fun _ => .lowOf m) hhigh
    | L => exact twoCalls_disciplined m false (fun _ => .highOf m) hlow
    | RL => exact twoCalls_disciplined m false hhigh hlow
    | LR | ITSELF => exact twoCalls_disciplined m true hlow hhigh

theorem traverse_disciplined {targetLevel : ℕ} {action : ℕ → Code P ℕ} {pref actionOn : Branch}
    (haction : ∀ n m, Disciplined D isPrime R true n (fun _ => n) (action m)) (fuel n m : ℕ)
    (parentLevel : ℤ) : Disciplined D isPrime R true n (fun _ => n)
      (Code.traverse D isPrime targetLevel action pref actionOn fuel m parentLevel) := by
  induction fuel generalizing n m parentLevel with
  | zero => exact .stuck
  | succ fuel ih =>
    have hvisit : ∀ n m, Disciplined D isPrime R true n (fun _ => n)
        (Code.visit D isPrime targetLevel action pref actionOn
          (Code.traverse D isPrime targetLevel action pref actionOn fuel) m) := fun n m =>
      visit_disciplined haction ih m
    unfold Code.traverse
    apply Disciplined.bind (.look _)
    intro skipped
    split_ifs
    · apply Disciplined.virtualNode (k := n) (r := fun _ => n + 1)
      · intro workingNode hne
        apply Disciplined.bind (.pushref workingNode)
        intro _
        apply Disciplined.bind (hvisit (n + 1) workingNode)
        intro res
        apply Disciplined.bind (.pushref res)
        intro _
        rw [if_pos hne.symm]
        apply Disciplined.bind (.readref 1)
        intro kept
        apply Disciplined.bind (.popref 2 (by omega))
        intro _
        apply Disciplined.bind (.pushref kept)
        intro _
        apply Disciplined.bind (.popref 1 (by omega))
        intro _
        exact .pure kept
      · -- the entry of the working node stays on the stack
        apply Disciplined.bind (.pushref m)
        intro _
        apply Disciplined.bind (hvisit (n + 1) m)
        intro res
        apply Disciplined.bind (.pushref res)
        intro _
        rw [if_neg (not_not_intro rfl)]
        apply Disciplined.bind (.popref 1 (by omega))
        intro _
        exact .pure res
    · apply Disciplined.bind (hvisit n m)
      intro res
      apply Disciplined.bind (.pushref res)
      intro _
      apply Disciplined.bind (.popref 1 (by omega))
      intro _
      exact .pure res

theorem mtbddWithTraverseTo_disciplined (targetLevel : ℕ) {action : ℕ → Code P ℕ}
    (pref actionOn : Branch) (fuel root : ℕ)
    (h : ∀ n m, Disciplined D isPrime R true n (fun _ => n) (action m)) :
    Disciplined D isPrime R true n (fun _ => n)
      (Code.mtbddWithTraverseTo D isPrime targetLevel action pref actionOn fuel root) :=
  .bind (aboveRoot_disciplined root) fun parentLevel => traverse_disciplined h fuel n root parentLevel

theorem virtNode_disciplined (targetLevel : ℕ) (pref : Branch) (m : ℕ) (parentLevel : ℤ) :
    Disciplined D isPrime R true n (fun _ => n)
      (Code.virtNode D isPrime targetLevel pref m parentLevel) := by
  unfold Code.virtNode
  apply Disciplined.bind (.look _)
  intro skipped
  split_ifs
  · rw [← Prog.bind_ret (Code.virtualNode D isPrime _ m)]
    exact .virtualNode _ m (fun res _ => .ret res rfl) (.ret (p := fun _ => n) m rfl)
  · exact .pure m

theorem pushIf_disciplined (flag : Bool) (m : ℕ) :
    Disciplined D isPrime R c n (fun _ => n + flag.toNat) (Code.pushIf flag m) := by
  cases flag with
  | true => exact .pushref m
  | false => exact .pure ()

theorem popIf_disciplined (flag : Bool) :
    Disciplined D isPrime R c (n + flag.toNat) (fun _ => n) (Code.popIf flag) := by
  cases flag with
  | true => exact .popref 1 (Nat.le_add_left 1 n)
  | false => exact .pure ()

theorem actionSide_disciplined (actionOn : Branch) (m : ℕ) :
    Disciplined D isPrime R c n (fun _ => n) (Code.actionSide actionOn m) := by
  cases actionOn with
  | L => exact .lowOf m
  | R => exact .highOf m
  | LR | RL | ITSELF => exact .pure m

theorem putBack_disciplined (targetLevel : ℕ) (actionOn : Branch) (m : ℕ) :
    Disciplined D isPrime R c n (fun _ => n) (Code.putBack D isPrime targetLevel actionOn m) := by
  cases actionOn with
  | L => exact .bind (.readref 2) fun new => .bind (.highOf m) fun high => .makenode _ new high
  | R => exact .bind (.readref 2) fun new => .bind (.lowOf m) fun low => .makenode _ low new
  | LR | RL | ITSELF => exact .pure m

theorem descendLow_disciplined (pref : Branch) (m : ℕ) :
    Disciplined D isPrime R c n (fun _ => n) (Code.descendLow pref m) := by
  unfold Code.descendLow
  split_ifs
  · exact .pure m
  · exact .lowOf m

theorem descendHigh_disciplined (pref : Branch) (m : ℕ) :
    Disciplined D isPrime R c n (fun _ => n) (Code.descendHigh pref m) := by
  unfold Code.descendHigh
  split_ifs
  · exact .pure m
  · exact .highOf m

theorem lockstepBoth_disciplined {low high : Code P (ℕ × ℕ)} (level : ℕ)
    (hlow : ∀ n, Disciplined D isPrime R c n (fun _ => n) low)
    (hhigh : ∀ n, Disciplined D isPrime R c n (fun _ => n) high) :
    Disciplined D isPrime R c n (fun _ => n) (Code.lockstepBoth D isPrime low high level) := by
  unfold Code.lockstepBoth
  refine .bind (hlow n) fun lo => .bind (.pushref lo.1) fun _ => .bind (.pushref lo.2) fun _ => ?_
  refine .bind (hhigh _) fun hi => .bind (.pushref hi.1) fun _ => .bind (.pushref hi.2) fun _ => ?_
  refine .bind (.readref 4) fun a => .bind (.readref 2) fun b => ?_
  refine .bind (.makenode level a b) fun outL => .bind (.pushref outL) fun _ => ?_
  refine .bind (.readref 4) fun a => .bind (.readref 2) fun b => ?_
  refine .bind (.makenode level a b) fun outR => .bind (.readref 1) fun outL => ?_
  refine .bind (.popref 5 (by omega)) fun _ => ?_
  exact .pure _

/-- Push the two results, and read them back before they are popped. -/
theorem pushPop_disciplined {r : ℕ × ℕ} {q : β → ℕ} {f : ℕ → ℕ → Code P β}
    (hf : ∀ a b, Disciplined D isPrime R c n q (f a b)) :
    Disciplined D isPrime R c n q (do
      Code.pushref r.1
      Code.pushref r.2
      let r1 ← Code.readref 2
      let r2 ← Code.readref 1
      Code.popref 2
      f r1 r2) := by
  refine .bind (.pushref r.1) fun _ => .bind (.pushref r.2) fun _ => ?_
  refine .bind (.readref 2) fun r1 => .bind (.readref 1) fun r2 => ?_
  exact .bind (.popref 2 (by omega)) fun _ => hf r1 r2

theorem lockstep_disciplined {targetLevel : ℕ} {action : ℕ → ℕ → Code P (ℕ × ℕ)}
    {prefL actionOnL prefR actionOnR : Branch}
    (haction : ∀ n a b, Disciplined D isPrime R true n (fun _ => n) (action a b)) (fuel n L R' : ℕ)
    (parentL parentR : ℤ) : Disciplined D isPrime R true n (fun _ => n)
      (Code.lockstep D isPrime targetLevel action prefL actionOnL prefR actionOnR fuel L R' parentL
        parentR) := by
  induction fuel generalizing n L R' parentL parentR with
  | zero => exact .stuck
  | succ fuel ih =>
    unfold Code.lockstep
    dsimp only
    apply Disciplined.bind (virtNode_disciplined targetLevel prefL L parentL)
    intro wL
    apply Disciplined.bind (pushIf_disciplined _ wL)
    intro _
    apply Disciplined.bind (virtNode_disciplined targetLevel prefR R' parentR)
    intro wR
    apply Disciplined.bind (pushIf_disciplined _ wR)
    intro _
    apply Disciplined.bind (.look _)
    intro levelL
    apply Disciplined.bind (.look _)
    intro levelR
    have hdone : ∀ res : ℕ × ℕ, Disciplined D isPrime R true
        (n + (decide (wL ≠ L)).toNat + (decide (wR ≠ R')).toNat) (fun _ => n) (do
          Code.pushref res.1
          Code.pushref res.2
          let r1 ← Code.readref 2
          let r2 ← Code.readref 1
          Code.popref 2
          Code.popIf (wR ≠ R')
          Code.popIf (wL ≠ L)
          Code.pushref r1
          Code.pushref r2
          Code.popref 2
          return (r1, r2)) := by
      intro res
      refine pushPop_disciplined fun r1 r2 => ?_
      refine .bind (popIf_disciplined _) fun _ => .bind (popIf_disciplined _) fun _ => ?_
      refine .bind (.pushref r1) fun _ => .bind (.pushref r2) fun _ => ?_
      exact .bind (.popref 2 (by omega)) fun _ => .pure _
    split_ifs
    · exact .bind (haction _ wL wR) hdone
    · refine .bind (actionSide_disciplined actionOnL wL) fun a => ?_
      refine .bind (actionSide_disciplined actionOnR wR) fun b => .bind (haction _ a b) fun out => ?_
      refine .bind (.pushref out.1) fun _ => .bind (.pushref out.2) fun _ => ?_
      refine .bind (putBack_disciplined targetLevel actionOnL wL) fun newL => ?_
      refine .bind (.pushref newL) fun _ => ?_
      refine .bind (putBack_disciplined targetLevel actionOnR wR) fun newR => ?_
      refine .bind (.pushref newR) fun _ => ?_
      refine .bind (.readref 2) fun newL => .bind (.readref 1) fun newR => ?_
      exact .bind (.popref 4 (by omega)) fun _ => .bind (.pure _) hdone
    · refine .bind (descendLow_disciplined prefL wL) fun loL => ?_
      refine .bind (descendHigh_disciplined prefL wL) fun hiL => ?_
      refine .bind (descendLow_disciplined prefR wR) fun loR => ?_
      refine .bind (descendHigh_disciplined prefR wR) fun hiR => ?_
      exact .bind (lockstepBoth_disciplined _ (fun n => ih n _ _ _ _) fun n => ih n _ _ _ _) hdone
    · refine .bind (descendLow_disciplined prefL wL) fun loL => ?_
      refine .bind (descendHigh_disciplined prefL wL) fun hiL => ?_
      exact .bind (lockstepBoth_disciplined _ (fun n => ih n _ _ _ _) fun n => ih n _ _ _ _) hdone
    · refine .bind (descendLow_disciplined prefR wR) fun loR => ?_
      refine .bind (descendHigh_disciplined prefR wR) fun hiR => ?_
      exact .bind (lockstepBoth_disciplined _ (fun n => ih n _ _ _ _) fun n => ih n _ _ _ _) hdone

theorem mtbddWithLockstepTo_disciplined (targetLevel : ℕ) {action : ℕ → ℕ → Code P (ℕ × ℕ)}
    (prefL actionOnL prefR actionOnR : Branch) (fuel L R' : ℕ)
    (h : ∀ n a b, Disciplined D isPrime R true n (fun _ => n) (action a b)) :
    Disciplined D isPrime R true n (fun _ => n)
      (Code.mtbddWithLockstepTo D isPrime targetLevel action prefL actionOnL prefR actionOnR fuel L
        R') :=
  .bind (aboveRoot_disciplined L) fun parentL => .bind (aboveRoot_disciplined R') fun parentR =>
    lockstep_disciplined h fuel n L R' parentL parentR

/-! ## Swaps -/

theorem mtbddMakeSwap_disciplined {paramL paramR : SwapParam P}
    (hL : ∀ n a, Disciplined D isPrime R c n (fun _ => n) (paramL.putUp a))
    (hR : ∀ n a, Disciplined D isPrime R c n (fun _ => n) (paramR.putUp a))
    (hinL : ∀ n a b, Disciplined D isPrime R c n (fun _ => n) (paramL.putIn a b))
    (hinR : ∀ n a b, Disciplined D isPrime R c n (fun _ => n) (paramR.putIn a b)) (L R' : ℕ) :
    Disciplined D isPrime R c n (fun _ => n) (Code.mtbddMakeSwap paramL paramR L R') := by
  unfold Code.mtbddMakeSwap
  refine .bind (hL n L) fun offerL => .bind (hR n R') fun offerR => ?_
  refine .bind (.pushref offerL) fun _ => .bind (.pushref offerR) fun _ => ?_
  refine .bind (hinL _ L offerR) fun newL => .bind (.pushref newL) fun _ => ?_
  refine .bind (hinR _ R' offerL) fun newR => .bind (.pushref newR) fun _ => ?_
  refine .bind (.readref 2) fun a => .bind (.readref 1) fun b => ?_
  exact .bind (.popref 4 (by omega)) fun _ => .pure _

theorem mtbddMakeSwapChildren_disciplined (m : ℕ) :
    Disciplined D isPrime R c n (fun _ => n) (Code.mtbddMakeSwapChildren D isPrime m) := by
  unfold Code.mtbddMakeSwapChildren
  refine .bind (.highOf m) fun high => .bind (.pushref high) fun _ => ?_
  refine .bind (.lowOf m) fun low => .bind (.pushref low) fun _ => ?_
  refine .bind (.readref 2) fun low => .bind (.readref 1) fun high => ?_
  refine .bind (.look _) fun level => .bind (.makenode level low high) fun res => ?_
  exact .bind (.popref 2 (by omega)) fun _ => .pure res

end MoToBuddy.Bdd
