import MoToBuddy.Bdd.Lockstep
import MoToBuddy.Lib.Budget

/-!
# Where a lockstep ends

The recursion of `mtbdd_with_lockstep_to` ends as soon as a side with a descent into one child is at
the target from the start. A table that is full is another matter: `bdd_makenode` returns node `0`
after its report, which has no children to descend to. So the recursion ends where the error handler
does not return, or where the table has free slots for all that is made.
-/

namespace MoToBuddy.Bdd

open Chained Decision Jumping

open Code (Branch)

variable {P : Type} {D : MtbddDomain P} {isPrime : ℕ → Bool} {g : Globals P} {α β : Type}

/-! ## Free slots -/

/-- There are `k` slots on the free list. -/
def Spare (k : ℕ) (g : Globals P) : Prop := g.kernel.Room k

/-- The program makes at most `k` nodes. -/
abbrev Costs (k : ℕ) (p : Code P α) : Prop := Prog.Costs (fun g => g.kernel.Ok) Spare k p

theorem spare_less (i j : ℕ) (g : Globals P) (hij : i ≤ j) (h : Spare j g) : Spare i g :=
  h.mono hij

theorem Settled.spare (hs : Settled D isPrime g) : Spare g.kernel.bddfreenum g := by
  obtain ⟨flight, hi⟩ := hs.table
  obtain ⟨l, hl, hnodup, hlen, -⟩ := hi.threaded.free
  have hroom := BddState.Room.of_chain hl hnodup
  exact hroom.mono hlen.ge

theorem look_costs (h : Globals P → β) : Costs 0 (Code.look h) :=
  .step fun g j hok hspare => ⟨h g, g, rfl, hok, by rwa [Nat.zero_add] at hspare⟩

theorem update_costs {h : BddState P → BddState P} (hlinks : ∀ s, (h s).links = s.links)
    (hok : ∀ s, (h s).bdderrorcond = s.bdderrorcond) : Costs 0 (Code.update h) := by
  refine .step fun g j hg hspare => ⟨(), _, rfl, (hok g.kernel).trans hg, ?_⟩
  rw [Nat.zero_add] at hspare
  unfold Spare BddState.Room BddState.freeSlots
  dsimp only
  rw [hlinks]
  exact hspare

theorem pushref_costs (n : ℕ) : Costs 0 (Code.pushref n : Code P Unit) :=
  update_costs (fun _ => rfl) fun _ => rfl

theorem popref_costs (k : ℕ) : Costs 0 (Code.popref k : Code P Unit) :=
  update_costs (fun _ => rfl) fun _ => rfl

theorem pure_costs (a : α) : Costs 0 (pure a : Code P α) := .ret a

theorem makenode_costs (level low high : ℕ) : Costs 1 (Code.makenode D isPrime level low high) := by
  refine .step fun g j hok hspare => ?_
  rw [Nat.add_comm] at hspare
  have hfree : g.kernel.bddfreepos ≠ 0 := BddState.Room.freepos hspare
  have hno : g.interrupts D level low high = false := by
    unfold Globals.interrupts BddState.collects
    simp [hfree]
  unfold makenodeStep
  rw [if_neg (by rw [hno]; decide)]
  exact ⟨_, _, rfl, bddMakenode_room hok hspare level low high⟩

/-! ## What a lockstep makes -/

section

variable {target a b k : ℕ} {pref prefL onL prefR onR actionOn : Branch} {parent : ℤ}
  {action : ℕ → ℕ → Code P (ℕ × ℕ)}

theorem virtNode_costs : Costs 1 (Code.virtNode D isPrime target pref a parent) := by
  unfold Code.virtNode Code.below
  refine .free (look_costs _) fun h => ?_
  split
  · unfold Code.virtualNode
    refine .free (update_costs (fun _ => rfl) fun _ => rfl) fun _ => ?_
    refine Prog.Costs.last (makenode_costs _ a a) fun res => ?_
    exact .free (update_costs (fun _ => rfl) fun _ => rfl) fun _ => pure_costs res
  · exact (pure_costs a).mono spare_less (Nat.zero_le 1)

theorem pushIf_costs (flag : Bool) (n : ℕ) : Costs 0 (Code.pushIf flag n : Code P Unit) := by
  unfold Code.pushIf
  split
  · exact pushref_costs n
  · exact pure_costs ()

theorem popIf_costs (flag : Bool) : Costs 0 (Code.popIf flag : Code P Unit) := by
  unfold Code.popIf
  split
  · exact popref_costs 1
  · exact pure_costs ()

theorem actionSide_costs (n : ℕ) : Costs 0 (Code.actionSide actionOn n : Code P ℕ) := by
  cases actionOn with
  | L | R => exact look_costs _
  | LR | RL | ITSELF => exact pure_costs n

theorem putBack_costs (n : ℕ) : Costs 1 (Code.putBack D isPrime target actionOn n) := by
  cases actionOn with
  | L => exact .free (look_costs _) fun _ => .free (look_costs _) fun _ => makenode_costs _ _ _
  | R => exact .free (look_costs _) fun _ => .free (look_costs _) fun _ => makenode_costs _ _ _
  | LR | RL | ITSELF => exact (pure_costs n).mono spare_less (Nat.zero_le 1)

theorem descendLow_costs (n : ℕ) : Costs 0 (Code.descendLow pref n : Code P ℕ) := by
  unfold Code.descendLow
  split
  · exact pure_costs n
  · exact look_costs _

theorem descendHigh_costs (n : ℕ) : Costs 0 (Code.descendHigh pref n : Code P ℕ) := by
  unfold Code.descendHigh
  split
  · exact pure_costs n
  · exact look_costs _

theorem lockstepBoth_costs {low high : Code P (ℕ × ℕ)} {k' level : ℕ} (hlow : Costs k low)
    (hhigh : Costs k' high) : Costs (k + (k' + (1 + 1))) (Code.lockstepBoth D isPrime low high level) := by
  unfold Code.lockstepBoth
  refine hlow.bind fun lo => ?_
  refine .free (pushref_costs _) fun _ => .free (pushref_costs _) fun _ => hhigh.bind fun hi => ?_
  refine .free (pushref_costs _) fun _ => .free (pushref_costs _) fun _ => ?_
  refine .free (look_costs _) fun low => .free (look_costs _) fun high => ?_
  refine Prog.Costs.bind (makenode_costs level low high) fun outL => ?_
  refine .free (pushref_costs _) fun _ => ?_
  refine .free (look_costs _) fun low => .free (look_costs _) fun high => ?_
  refine Prog.Costs.last (makenode_costs level low high) fun outR => ?_
  exact .free (look_costs _) fun outL => .free (popref_costs 5) fun _ => pure_costs (outL, outR)

/-- The nodes of a lockstep whose action makes `k` nodes: in each call two for skipped levels, and
two for the results, which the action comes before. -/
def lockstepNodes (k : ℕ) : ℕ → ℕ
  | 0 => 0
  | fuel + 1 => 4 + k + 2 * lockstepNodes k fuel

theorem lockstepEnd_costs (wL wR : ℕ) (r : ℕ × ℕ) :
    Costs 0 (do
      Code.pushref r.1
      Code.pushref r.2
      let r1 ← Code.readref 2
      let r2 ← Code.readref 1
      Code.popref 2
      Code.popIf (wR ≠ b)
      Code.popIf (wL ≠ a)
      Code.pushref r1
      Code.pushref r2
      Code.popref 2
      pure (r1, r2) : Code P (ℕ × ℕ)) := by
  refine .free (pushref_costs _) fun _ => .free (pushref_costs _) fun _ => ?_
  refine .free (look_costs _) fun r1 => .free (look_costs _) fun r2 => ?_
  refine .free (popref_costs 2) fun _ => .free (popIf_costs _) fun _ => .free (popIf_costs _) fun _ => ?_
  refine .free (pushref_costs _) fun _ => .free (pushref_costs _) fun _ => ?_
  exact .free (popref_costs 2) fun _ => pure_costs (r1, r2)

/-- In each call: the nodes for skipped levels, and then the action with its results or both calls
below with theirs. -/
theorem lockstep_costs (haction : ∀ a b, Costs k (action a b)) (fuel : ℕ) (a b : ℕ)
    (parentL parentR : ℤ) :
    Costs (lockstepNodes k fuel)
      (Code.lockstep D isPrime target action prefL onL prefR onR fuel a b parentL parentR) := by
  induction fuel generalizing a b parentL parentR with
  | zero => exact .stuck
  | succ fuel ih =>
    have hboth : ∀ a b a' b' l r l' r' level, Costs (2 + k + 2 * lockstepNodes k fuel)
        (Code.lockstepBoth D isPrime
          (Code.lockstep D isPrime target action prefL onL prefR onR fuel a b l r)
          (Code.lockstep D isPrime target action prefL onL prefR onR fuel a' b' l' r') level) :=
      fun a b a' b' l r l' r' level =>
        (lockstepBoth_costs (ih a b l r) (ih a' b' l' r')).mono spare_less (by omega)
    rw [show lockstepNodes k (fuel + 1) = 1 + (1 + (2 + k + 2 * lockstepNodes k fuel)) by
      rw [lockstepNodes]; omega]
    unfold Code.lockstep
    refine Prog.Costs.bind virtNode_costs fun wL => .free (pushIf_costs _ wL) fun _ => ?_
    refine Prog.Costs.bind virtNode_costs fun wR => .free (pushIf_costs _ wR) fun _ => ?_
    refine .free (look_costs _) fun levelL => .free (look_costs _) fun levelR => ?_
    dsimp only
    have hless : k ≤ 2 + k + 2 * lockstepNodes k fuel := by omega
    have hdone := lockstepEnd_costs (P := P) (a := a) (b := b) wL wR
    split_ifs
    · exact Prog.Costs.last ((haction wL wR).mono spare_less hless) hdone
    · refine .free (actionSide_costs wL) fun inL => .free (actionSide_costs wR) fun inR => ?_
      refine .mono spare_less (k := k + (1 + 1)) ?_ (by omega)
      refine (haction inL inR).bind fun out => ?_
      refine .free (pushref_costs _) fun _ => .free (pushref_costs _) fun _ => ?_
      refine Prog.Costs.bind (putBack_costs wL) fun newL => .free (pushref_costs newL) fun _ => ?_
      refine Prog.Costs.last (putBack_costs wR) fun newR => ?_
      refine .free (pushref_costs newR) fun _ => .free (look_costs _) fun newL => ?_
      exact .free (look_costs _) fun newR => .free (popref_costs 4) fun _ => hdone (newL, newR)
    · refine .free (descendLow_costs wL) fun loL => .free (descendHigh_costs wL) fun hiL => ?_
      refine .free (descendLow_costs wR) fun loR => .free (descendHigh_costs wR) fun hiR => ?_
      exact Prog.Costs.last (hboth _ _ _ _ _ _ _ _ _) hdone
    · refine .free (descendLow_costs wL) fun loL => .free (descendHigh_costs wL) fun hiL => ?_
      exact Prog.Costs.last (hboth _ _ _ _ _ _ _ _ _) hdone
    · refine .free (descendLow_costs wR) fun loR => .free (descendHigh_costs wR) fun hiR => ?_
      exact Prog.Costs.last (hboth _ _ _ _ _ _ _ _ _) hdone

end

/-! ## When it ends -/

/-- A call is over: it returned, it was left for an operator that starts again, or an exhaustion was
reported, after which an error handler that does not return has ended the program. -/
def Over (r : Result (Globals P) (Entry P) Command α) : Prop :=
  (∃ a m, r = .value a m) ∨ (∃ m, r = .jump m) ∨ ¬ r.machine.Stays (·.kernel.Ok)

/-- A side with a descent into one child has an operand that is at the target or below it. -/
def StartsBelow (s : BddState P) (target : ℕ) (prefL prefR : Branch) (a b : ℕ) : Prop :=
  (OneSided prefL → a < 2 ∨ target ≤ s.level a) ∧ (OneSided prefR → b < 2 ∨ target ≤ s.level b)

section Ends

variable {target a b k fuel : ℕ} {prefL onL prefR onR : Branch} {tL tR : DTree (ℕ × Leaf P)}
  {action : ℕ → ℕ → Code P (ℕ × ℕ)} {m : Process P}

theorem startsBelow_iff (hs : Settled D isPrime g) (ha : Diagram D g a tL) (hb : Diagram D g b tR)
    (htarget : target < g.kernel.env.bddvarnum) :
    StartsBelow g.kernel target prefL prefR a b ↔
      Arrives target prefL (rootParent g.kernel.env.bddvarnum tL) tL ∧
        Arrives target prefR (rootParent g.kernel.env.bddvarnum tR) tR := by
  have hle : target ≤ maxlevel := Nat.le_of_lt (Nat.lt_of_lt_of_le htarget hs.varnum)
  rw [StartsBelow, ← ha.toRooted.above_iff hle, ← hb.toRooted.above_iff hle,
    ← arrives_root htarget, ← arrives_root htarget]

end Ends

/-! ### Two variables with room -/

/-- Two variables in a table of `37` slots. -/
def roomyVariables : BddState UInt32 := bddSetvarnum intDomain trialDivision (bddInit 37 3) 2

theorem roomyVariables_data : roomyVariables.Ok ∧ roomyVariables.env.bddvarnum = 2 ∧
    28 ≤ roomyVariables.bddfreenum ∧ ∀ v < 2, roomyVariables.key (2 * v + 2) = ⟨some 0, 1, v⟩ ∧
      0 < (roomyVariables.bddnodes (2 * v + 2)).refcou := by
  unfold BddState.Ok
  decide +kernel

theorem roomyVariables_reachable : Reachable intDomain trialDivision roomyVariables :=
  .call (.init 37 3 ⟨by decide, by decide, by decide⟩) (.setvarnum 2) roomyVariables_data.1

theorem roomyVariables_diagram {v : ℕ} (hv : v < 2) :
    Diagram intDomain (Globals.init roomyVariables) (2 * v + 2) (variableTree v) := by
  obtain ⟨-, hnum, -, hnodes⟩ := roomyVariables_data
  obtain ⟨hkey, href⟩ := hnodes v hv
  exact variable_diagram hnum hv (by omega) hkey href

theorem pair_performs {D : MtbddDomain P} {isPrime : ℕ → Bool} (M target : ℕ) :
    PerformsBoth D isPrime M target (fun _ _ _ _ => True) fun a b => pure (a, b) :=
  fun _ _ _ _ _ hs ha hb _ _ _ _ =>
    pure_yields ⟨.refl hs, _, _, trivial, ha.unfolds, hb.unfolds⟩

theorem pair_costs (a b : ℕ) : Costs 0 (pure (a, b) : Code P (ℕ × ℕ)) := pure_costs (a, b)

section Loops

variable {β : Type}

/-- From `g` the program never returns, nor does it jump. -/
def Loops (p : Code P α) (g : Globals P) : Prop :=
  ∀ m : Process P, m.globals = g → ∃ m', p.run m = .stuck m'

theorem Loops.look {h : Globals P → β} {f : β → Code P α} (hf : Loops (f (h g)) g) :
    Loops (Code.look h >>= f) g := by
  rintro m rfl
  exact hf (m.log (m.now .kernel)) rfl

theorem Loops.bind {p : Code P β} (h : Loops p g) (f : β → Code P α) : Loops (p >>= f) g := by
  intro m hm
  obtain ⟨m', hm'⟩ := h m hm
  refine ⟨m', ?_⟩
  rw [Prog.run_bind, hm']
  rfl

theorem Loops.aboveRoot {n : ℕ} {f : ℤ → Code P α} (hf : ∀ z, Loops (f z) g) :
    Loops (Code.aboveRoot n >>= f) g := by
  rintro m rfl
  exact hf _ (m.log (m.now .kernel)) rfl

/-- A node at the target or above it is worked on as it is. -/
theorem Loops.virtNode {target a : ℕ} {pref : Branch} {parent : ℤ} (h2 : 2 ≤ a)
    (hle : g.kernel.level a ≤ target) {f : ℕ → Code P α} (hf : Loops (f a) g) :
    Loops (do
      let w ← Code.virtNode D isPrime target pref a parent
      Code.pushIf (w ≠ a) w
      f w) g := by
  rintro m rfl
  have hbelow : (decide (m.globals.kernel.level a > target) || decide (a < 2)) = false := by
    simp
    omega
  have hvirt : (Code.virtNode D isPrime target pref a parent).run m =
      .value a (m.log (m.now .kernel)) := by
    unfold Code.virtNode Code.below
    rw [Prog.run_bind]
    show ((if (_ || _ : Bool) = true then _ else _ : Code P ℕ)).run _ = _
    rw [hbelow]
    rfl
  rw [Prog.run_bind, hvirt]
  simp only [Result.bind, ne_eq, not_true_eq_false, decide_false, Code.pushIf, Bool.false_eq_true,
    if_false]
  exact hf (m.log (m.now .kernel)) rfl

/-- A node above the target that stays in place on both sides is the operand of the next call. -/
theorem lockstep_loops {target a : ℕ} (action : ℕ → ℕ → Code P (ℕ × ℕ)) (onL onR : Branch)
    (h2 : 2 ≤ a) (hlt : g.kernel.level a < target) (fuel : ℕ) (parentL parentR : ℤ) :
    Loops (Code.lockstep D isPrime target action .R onL .R onR fuel a a parentL parentR) g := by
  induction fuel generalizing parentL parentR with
  | zero => exact fun m _ => ⟨m, rfl⟩
  | succ fuel ih =>
    unfold Code.lockstep
    apply Loops.virtNode h2 (Nat.le_of_lt hlt)
    apply Loops.virtNode h2 (Nat.le_of_lt hlt)
    apply Loops.look
    apply Loops.look
    dsimp only
    rw [if_neg (by omega), if_pos rfl]
    exact .look (.look (((ih _ _).bind _).bind _))

theorem Loops.step {c : Command} {f : Globals P → Outcome (Globals P) β} {k : β → Code P α} {b : β}
    {g' : Globals P} (hf : f g = .done b g') (hk : Loops (k b) g') : Loops (.step c f k) g := by
  rintro m rfl
  obtain ⟨m', hm'⟩ := hk { m.log (m.now c) with globals := g' } rfl
  refine ⟨m', ?_⟩
  unfold Prog.run
  rw [hf]
  exact hm'

/-- The node for a skipped level above a constant. -/
theorem Loops.skipped {target n w : ℕ} {pref : Branch} {parent : ℤ} {s : BddState P} (hn : n < 2)
    (hmethod : g.bddreordermethod = 0) (hmake : bddMakenode D isPrime
      { g.kernel with checkSameChildren := false } (Code.virtualLevel target pref parent) n n =
        (w, s)) (hne : w ≠ n) {f : ℕ → Code P α}
    (hf : Loops (f w) { g with kernel := ({ s with checkSameChildren := true }).pushref w }) :
    Loops (do
      let w ← Code.virtNode D isPrime target pref n parent
      Code.pushIf (w ≠ n) w
      f w) g := by
  have hbelow : (decide (g.kernel.level n > target) || decide (n < 2)) = true := by simp [hn]
  have hstep : makenodeStep D isPrime (Code.virtualLevel target pref parent) n n
      { g with kernel := { g.kernel with checkSameChildren := false } } =
        .done w { g with kernel := s } := by
    have hready : Globals.bddReorderReady
        { g with kernel := { g.kernel with checkSameChildren := false } } = false := by
      simp [Globals.bddReorderReady, hmethod]
    unfold makenodeStep Globals.interrupts
    rw [hready, Bool.and_false, if_neg Bool.false_ne_true]
    dsimp only
    rw [hmake]
  unfold Code.virtNode Code.below
  refine Loops.step (b := true) (congrArg (fun b => Outcome.done b g) hbelow) ?_
  refine Loops.step rfl ?_
  refine Loops.step hstep ?_
  refine Loops.step rfl ?_
  show Loops (Code.pushIf (w ≠ n) w >>= fun _ => f w) _
  rw [decide_eq_true hne]
  exact Loops.step rfl hf

/-- The node that the unique table has for a key, or `0`. -/
def BddState.inTable (s : BddState P) (level low high : ℕ) : ℕ :=
  Chained.search (keyMatches s level low high) (fun n => (s.bddnodes n).next) (s.bddnodesize + 1)
    (s.bddnodes (nodehash s.bddnodesize level low high)).hash

/-- After an exhaustion `bdd_makenode` only finds nodes. -/
theorem bddMakenode_exhausted {s : BddState P} (hfree : s.bddfreepos = 0)
    (herror : s.bdderrorcond = true) (hcheck : s.checkSameChildren = false) {level : ℕ}
    (hlevel : level ≠ maxlevel) (low high : ℕ) :
    bddMakenode D isPrime s level low high = (s.inTable level low high, s) := by
  have hlookup : (decide (level ≠ maxlevel) || !D.domaintype.notShort) = true := by simp [hlevel]
  unfold bddMakenode BddState.inTable
  dsimp only
  rw [hlookup, if_neg (by simp [hcheck]), if_pos rfl]
  by_cases hfound : Chained.search (keyMatches s level low high) (fun n => (s.bddnodes n).next)
      (s.bddnodesize + 1) (s.bddnodes (nodehash s.bddnodesize level low high)).hash = 0
  · rw [hfound, if_neg (not_not.mpr rfl), if_neg (not_not.mpr hfree), if_pos herror]
  · rw [if_pos hfound]

/-- The table was full when the second of the two nodes for the skipped level `1` was to be made:
there is node `w` with child `0`, and none with child `1`. -/
structure Exhausted (g : Globals P) (w : ℕ) : Prop where
  method : g.bddreordermethod = 0
  freepos : g.kernel.bddfreepos = 0
  error : g.kernel.bdderrorcond = true
  first : g.kernel.inTable 1 0 0 = w
  second : g.kernel.inTable 1 1 1 = 0
  level : g.kernel.level w = 1
  low : g.kernel.low w = 0
  constant : 1 < g.kernel.level 0

/-- The left side gets node `w` for the skipped level and the right side node `0`, which is below the
target: the left side goes down to the constant that it came from. -/
theorem lockstep_again {w fuel : ℕ} {s s' : BddState P} (hmethod : g.bddreordermethod = 0)
    (hw : w ≠ 0) (parentL parentR : ℤ)
    (hfirst : bddMakenode D isPrime { g.kernel with checkSameChildren := false } 1 0 0 = (w, s))
    (hsecond : bddMakenode D isPrime
      { ({ s with checkSameChildren := true }).pushref w with checkSameChildren := false } 1 1 1 =
        (0, s'))
    (hlevel : s'.level w = 1) (hlow : s'.low w = 0) (hconst : 1 < s'.level 0)
    {action : ℕ → ℕ → Code P (ℕ × ℕ)} {onL onR : Branch}
    (hrest : ∀ parentL parentR, Loops
      (Code.lockstep D isPrime 1 action .LR onL .LR onR fuel 0 1 parentL parentR)
      { g with kernel := ({ s' with checkSameChildren := true }).pushref 0 }) :
    Loops (Code.lockstep D isPrime 1 action .LR onL .LR onR (fuel + 1) 0 1 parentL parentR) g := by
  have hfirst' : bddMakenode D isPrime { g.kernel with checkSameChildren := false }
      (Code.virtualLevel 1 .LR parentL) 0 0 = (w, s) := hfirst
  have hsecond' : bddMakenode D isPrime
      { ({ s with checkSameChildren := true }).pushref w with checkSameChildren := false }
      (Code.virtualLevel 1 .LR parentR) 1 1 = (0, s') := hsecond
  have hmethod' : Globals.bddreordermethod
      { g with kernel := ({ s with checkSameChildren := true }).pushref w } = 0 := hmethod
  unfold Code.lockstep
  refine Loops.skipped (by decide) hmethod hfirst' hw ?_
  refine Loops.skipped (by decide) hmethod' hsecond' (by decide) ?_
  apply Loops.look
  apply Loops.look
  have hne : ¬ (s'.level w = 1 ∧ s'.level 0 = 1) := fun hboth => by omega
  have hlt : s'.level w < s'.level 0 := hlevel ▸ hconst
  show Loops (if s'.level w = 1 ∧ s'.level 0 = 1 then _ else if s'.level w = s'.level 0 then _
    else if s'.level w < s'.level 0 then _ else _) _
  rw [if_neg hne, if_neg hlt.ne, if_pos hlt]
  refine .look (.look (Loops.bind (Loops.bind ?_ _) _))
  show Loops (Code.lockstep D isPrime 1 action .LR onL .LR onR fuel (s'.low w) 1 _ _) _
  rw [hlow]
  exact hrest _ _

theorem lockstep_exhausted {w : ℕ} (h : Exhausted g w) (action : ℕ → ℕ → Code P (ℕ × ℕ))
    (onL onR : Branch) (fuel : ℕ) (parentL parentR : ℤ) (l : List ℕ) :
    Loops (Code.lockstep D isPrime 1 action .LR onL .LR onR fuel 0 1 parentL parentR)
      { g with kernel := { g.kernel with checkSameChildren := true, bddrefstack := l } } := by
  induction fuel generalizing parentL parentR l with
  | zero => exact fun m _ => ⟨m, rfl⟩
  | succ fuel ih =>
    have hw : w ≠ 0 := by
      rintro rfl
      have := h.level
      have := h.constant
      omega
    have hmake : ∀ l n, bddMakenode D isPrime
        { g.kernel with checkSameChildren := false, bddrefstack := l } 1 n n =
          (g.kernel.inTable 1 n n, { g.kernel with checkSameChildren := false, bddrefstack := l }) :=
      fun l n => bddMakenode_exhausted
        (s := { g.kernel with checkSameChildren := false, bddrefstack := l })
        h.freepos h.error rfl (show 1 ≠ maxlevel by decide) n n
    have hfirst := hmake l 0
    have hsecond := hmake (w :: l) 1
    rw [h.first] at hfirst
    rw [h.second] at hsecond
    have hmethod : Globals.bddreordermethod { g with
        kernel := { g.kernel with checkSameChildren := true, bddrefstack := l } } = 0 := h.method
    exact lockstep_again hmethod hw parentL parentR hfirst hsecond h.level h.low h.constant
      fun _ _ => ih _ _ _

end Loops

/-! ### A full table -/

/-- Four variables in a table of `11` slots, which may not grow: one slot is free. -/
def fourVariables : BddState UInt32 :=
  let s := bddSetvarnum intDomain trialDivision (bddInit 11 3) 4
  { s with env := { s.env with
    bddmaxnodesize := 11
    bddmaxnodeincrease := 50000
    minfreenodes := 20 } }

theorem fourVariables_reachable : Reachable intDomain trialDivision fourVariables := by
  have hok : (bddSetvarnum intDomain trialDivision (bddInit 11 3) 4).Ok := by
    unfold BddState.Ok
    decide +kernel
  exact .call (.call (.init 11 3 ⟨by decide, by decide, by decide⟩) (.setvarnum 4) hok)
    (.limits 11 50000 20) hok

/-- The node with child `0` for level `1` takes the free slot. -/
def lastFilled : BddState UInt32 :=
  (bddMakenode intDomain trialDivision { fourVariables with checkSameChildren := false } 1 0 0).2

/-- There is none for the node with child `1`. -/
def outOfNodes : BddState UInt32 :=
  (bddMakenode intDomain trialDivision { ({ lastFilled with checkSameChildren := true }).pushref 10
    with checkSameChildren := false } 1 1 1).2

theorem outOfNodes_data :
    (bddMakenode intDomain trialDivision { fourVariables with checkSameChildren := false } 1 0 0).1 =
        10 ∧
      (bddMakenode intDomain trialDivision { ({ lastFilled with checkSameChildren := true }).pushref
        10 with checkSameChildren := false } 1 1 1).1 = 0 ∧
      (outOfNodes.bddfreepos = 0 ∧ outOfNodes.bdderrorcond = true ∧
        outOfNodes.inTable 1 0 0 = 10 ∧ outOfNodes.inTable 1 1 1 = 0) ∧
      outOfNodes.level 10 = 1 ∧ outOfNodes.low 10 = 0 ∧ outOfNodes.level 0 = 4 := by
  decide +kernel

/-- In the full table both sides take both children, and the recursion has no end either. -/
theorem fourVariables_loops (action : ℕ → ℕ → Code UInt32 (ℕ × ℕ)) (onL onR : Branch) (fuel : ℕ)
    (parentL parentR : ℤ) :
    Loops (Code.lockstep intDomain trialDivision 1 action .LR onL .LR onR fuel 0 1 parentL parentR)
      (Globals.init fourVariables) := by
  obtain ⟨hfirst, hsecond, ⟨hfree, herror, hw, hnone⟩, hlevel, hlow, hconst⟩ := outOfNodes_data
  have hconst' : 1 < outOfNodes.level 0 := hconst ▸ (by decide : 1 < 4)
  cases fuel with
  | zero => exact fun m _ => ⟨m, rfl⟩
  | succ fuel =>
    have hfirst' : bddMakenode intDomain trialDivision
        { fourVariables with checkSameChildren := false } 1 0 0 = (10, lastFilled) :=
      Prod.ext hfirst rfl
    have hsecond' : bddMakenode intDomain trialDivision
        { ({ lastFilled with checkSameChildren := true }).pushref 10
          with checkSameChildren := false } 1 1 1 = (0, outOfNodes) := Prod.ext hsecond rfl
    refine lockstep_again rfl (by decide) parentL parentR hfirst' hsecond' hlevel hlow hconst'
      fun parentL parentR => ?_
    have hexhausted : Exhausted { Globals.init fourVariables with kernel := outOfNodes } 10 :=
      ⟨rfl, hfree, herror, hw, hnone, hlevel, hlow, hconst'⟩
    exact lockstep_exhausted hexhausted action onL onR fuel parentL parentR _

end MoToBuddy.Bdd
