import MoToBuddy.Bdd.Lockstep

/-!
# Actions at the target

For an action that only depends on the functions of its arguments, the function of what a full
descent returns is the action's at the subdiagrams that are reached at the target level along the
assignment. In a lockstep where only one side gives the action its node itself, that side keeps this
node, so there it has to be what the action returns (`combinators_act_iff`).
-/

namespace MoToBuddy.Bdd

open Decision Jumping

open Code (Branch virtualLevel)

variable {P : Type}

/-- A function of the levels, with values and constants as its results. -/
abbrev Fn (P : Type) : Type := (ℕ → Bool) → Leaf P

/-- The function of a tree. -/
def den (t : DTree (ℕ × Leaf P)) : Fn P := fun x => (t.eval x).2

/-- The part of a function that an action gets at the target. -/
def sideFn (target : ℕ) (actionOn : Branch) (f : Fn P) : Fn P :=
  match actionOn with
  | .L => fun x => f (Function.update x target false)
  | .R => fun x => f (Function.update x target true)
  | _ => f

/-- The function with another one in the place of the part that the action gets. -/
def placed (target : ℕ) (actionOn : Branch) (f v : Fn P) : Fn P :=
  match actionOn with
  | .L => fun x => if x target then f x else v x
  | .R => fun x => if x target then v x else f x
  | _ => v

/-- What an action does that only depends on the function of its argument. -/
def Maps (F : Fn P → Fn P) (t u : DTree (ℕ × Leaf P)) : Prop := den u = F (den t)

def MapsBoth (F : Fn P → Fn P → Fn P × Fn P) (ta tb u v : DTree (ℕ × Leaf P)) : Prop :=
  (den u, den v) = F (den ta) (den tb)

section Trees

variable {target level M : ℕ} {pref prefL prefR actionOn onL onR : Branch}
  {parent parentL parentR : ℤ} {t low high u r : DTree (ℕ × Leaf P)} {x : ℕ → Bool}

theorem den_join (level : ℕ) (low high : DTree (ℕ × Leaf P)) (x : ℕ → Bool) :
    den (.join level low high) x = if x level then den high x else den low x := by
  unfold den
  rw [DTree.eval_join]
  split <;> rfl

theorem den_node (level : ℕ) (low high : DTree (ℕ × Leaf P)) (x : ℕ → Bool) :
    den (.node level low high) x = if x level then den high x else den low x := by
  unfold den
  rw [DTree.eval_node]
  split <;> rfl

theorem Filled.den (h : Filled target pref parent t level low high) :
    Bdd.den (.node level low high) = Bdd.den t :=
  funext fun x => congrArg Prod.snd (h.eval x)

theorem den_sideOf (hs : (DTree.node target low high).Sorted M) :
    den (sideOf target actionOn low high) = sideFn target actionOn (den (.node target low high)) := by
  funext x
  unfold sideOf sideFn
  cases actionOn with
  | L => exact (congrArg Prod.snd (DTree.eval_node_false hs x)).symm
  | R => exact (congrArg Prod.snd (DTree.eval_node_true hs x)).symm
  | LR | RL | ITSELF => rfl

theorem den_withSide (hside : OneSided actionOn) :
    den (withSide target actionOn low high u) =
      placed target actionOn (den (.node target low high)) (den u) := by
  funext x
  rcases hside with rfl | rfl
  · simp only [withSide, placed, den_join, den_node]
    split <;> rfl
  · simp only [withSide, placed, den_join, den_node]
    split <;> rfl

theorem ActedOn.den_eq {F : Fn P → Fn P} (h : ActedOn target (Maps F) actionOn low high r)
    (hs : (DTree.node target low high).Sorted M) :
    den r = placed target actionOn (den (.node target low high))
      (F (sideFn target actionOn (den (.node target low high)))) := by
  have hside := @den_sideOf P target M actionOn low high hs
  unfold ActedOn at h
  cases actionOn with
  | L =>
    obtain ⟨u, hu, rfl⟩ := h
    have hu' : den u = F (den (sideOf target .L low high)) := hu
    rw [← hside, ← hu']
    exact den_withSide (.inl rfl)
  | R =>
    obtain ⟨u, hu, rfl⟩ := h
    have hu' : den u = F (den (sideOf target .R low high)) := hu
    rw [← hside, ← hu']
    exact den_withSide (.inr rfl)
  | LR | RL | ITSELF => exact h

/-! ## Full descents -/

/-- A full descent acts at the target, and nowhere else. -/
theorem Traversed.den_eq {F : Fn P → Fn P}
    (h : Traversed target (Maps F) pref actionOn t parent r) (hpref : pref = .LR ∨ pref = .RL)
    (hs : t.Sorted M) (htarget : target < M) (x : ℕ → Bool) :
    den r x = placed target actionOn (den (t.after target x))
      (F (sideFn target actionOn (den (t.after target x)))) x := by
  induction h with
  | act filled acted =>
    rw [filled.after_target, ← filled.den, acted.den_eq (filled.node_sorted hs htarget)]
  | low left _ _ _ => rcases hpref with rfl | rfl <;> exact nomatch left
  | high right _ _ _ => rcases hpref with rfl | rfl <;> exact nomatch right
  | @both t low high u v parent level _ _ filled above _ _ ihl ihh =>
    obtain ⟨hl, hh⟩ := filled.sorted hs
    rw [den_join, ihl hl, ihh hh, filled.after_lt (Nat.lt_of_le_of_ne filled.le above)]
    split <;> rfl

/-- What a side of a lockstep is after the action, as the functions of both sides say. -/
def lockstepFn (target : ℕ) (onL onR : Branch) (F : Fn P → Fn P → Fn P × Fn P) (f g : Fn P) :
    Fn P × Fn P :=
  let out := F (sideFn target onL f) (sideFn target onR g)
  (placed target onL f out.1, placed target onR g out.2)

/-- The side that a branch names for an action. -/
def ActionSide (actionOn : Branch) : Prop := OneSided actionOn ∨ actionOn = .ITSELF

/-- Only one of the sides gives the action its node itself: it keeps this node. -/
theorem ActedOnBoth.den_eq {F : Fn P → Fn P → Fn P × Fn P}
    {lowL highL lowR highR rL rR : DTree (ℕ × Leaf P)}
    (h : ActedOnBoth target (MapsBoth F) onL onR lowL highL lowR highR rL rR)
    (hsL : (DTree.node target lowL highL).Sorted M) (hsR : (DTree.node target lowR highR).Sorted M)
    (honL : ActionSide onL) (honR : ActionSide onR) :
    let f := den (.node target lowL highL)
    let g := den (.node target lowR highR)
    den rL = (if onL = .ITSELF ∧ onR ≠ .ITSELF then f else (lockstepFn target onL onR F f g).1) ∧
      den rR = if onR = .ITSELF ∧ onL ≠ .ITSELF then g else (lockstepFn target onL onR F f g).2 := by
  intro f g
  have hL : ∀ {on : Branch}, OneSided on → on ≠ .ITSELF := by
    rintro _ (rfl | rfl) <;> exact nofun
  unfold ActedOnBoth at h
  unfold lockstepFn
  split at h
  · rename_i hitself
    obtain ⟨rfl, rfl⟩ := hitself
    obtain ⟨hl, hr⟩ := Prod.mk.inj h
    simp only [ne_eq, not_true_eq_false, and_false, if_false]
    exact ⟨hl, hr⟩
  · rename_i hmixed
    obtain ⟨uL, uR, huv, rfl, rfl⟩ := h
    unfold MapsBoth at huv
    rw [den_sideOf hsL, den_sideOf hsR] at huv
    rw [← huv]
    constructor
    · rcases honL with hside | rfl
      · rw [if_neg fun h => hL hside h.1]
        exact den_withSide hside
      · rw [if_pos ⟨rfl, fun h => hmixed ⟨rfl, h⟩⟩]
        rfl
    · rcases honR with hside | rfl
      · rw [if_neg fun h => hL hside h.1]
        exact den_withSide hside
      · rw [if_pos ⟨rfl, fun h => hmixed ⟨h, rfl⟩⟩]
        rfl

/-- A lockstep of full descents acts on what both sides have at the target. -/
theorem Lockstepped.den_eq {F : Fn P → Fn P → Fn P × Fn P} {tL tR rL rR : DTree (ℕ × Leaf P)}
    (h : Lockstepped target (MapsBoth F) prefL onL prefR onR tL tR parentL parentR rL rR)
    (hprefL : prefL = .LR ∨ prefL = .RL) (hprefR : prefR = .LR ∨ prefR = .RL)
    (honL : ActionSide onL) (honR : ActionSide onR) (hsL : tL.Sorted M) (hsR : tR.Sorted M)
    (htarget : target < M) (x : ℕ → Bool) :
    let f := den (tL.after target x)
    let g := den (tR.after target x)
    den rL x = (if onL = .ITSELF ∧ onR ≠ .ITSELF then f else (lockstepFn target onL onR F f g).1) x ∧
      den rR x =
        (if onR = .ITSELF ∧ onL ≠ .ITSELF then g else (lockstepFn target onL onR F f g).2) x := by
  have htake : ∀ {pref : Branch}, pref = .LR ∨ pref = .RL → ∀ level (low high : DTree (ℕ × Leaf P)),
      takeLow pref level low high = low ∧ takeHigh pref level low high = high := by
    rintro _ (rfl | rfl) level low high <;> exact ⟨rfl, rfl⟩
  dsimp only
  induction h with
  | act left right acted =>
    have h := acted.den_eq (left.node_sorted hsL htarget) (right.node_sorted hsR htarget) honL honR
    rw [left.den, right.den] at h
    rw [left.after_target, right.after_target, h.1, h.2]
    exact ⟨rfl, rfl⟩
  | @both tL tR lowL highL lowR highR uL uR vL vR parentL parentR level left right above _ _ ihl
      ihh =>
    have hlt := Nat.lt_of_le_of_ne left.le above
    obtain ⟨hlL, hhL⟩ := left.sorted hsL
    obtain ⟨hlR, hhR⟩ := right.sorted hsR
    rw [(htake hprefL _ _ _).1, (htake hprefR _ _ _).1] at ihl
    rw [(htake hprefL _ _ _).2, (htake hprefR _ _ _).2] at ihh
    rw [den_join, den_join, left.after_lt hlt, right.after_lt hlt]
    cases x level
    · exact ihl hlL hlR
    · exact ihh hhL hhR
  | @left tL tR lowL highL lowR highR uL uR vL vR parentL parentR level levelR left right lt _ _ ihl
      ihh =>
    obtain ⟨hlL, hhL⟩ := left.sorted hsL
    rw [(htake hprefL _ _ _).1] at ihl
    rw [(htake hprefL _ _ _).2] at ihh
    rw [den_join, den_join, left.after_lt (Nat.lt_of_lt_of_le lt right.le)]
    cases x level
    · exact ihl hlL hsR
    · exact ihh hhL hsR
  | @right tL tR lowL highL lowR highR uL uR vL vR parentL parentR level levelL left right lt _ _ ihl
      ihh =>
    obtain ⟨hlR, hhR⟩ := right.sorted hsR
    rw [(htake hprefR _ _ _).1] at ihl
    rw [(htake hprefR _ _ _).2] at ihh
    rw [den_join, den_join, right.after_lt (Nat.lt_of_lt_of_le lt left.le)]
    cases x level
    · exact ihl hsL hlR
    · exact ihh hsL hhR

end Trees

/-! ## The operations -/

variable {D : MtbddDomain P} {isPrime : ℕ → Bool} {target : ℕ}

/-- A side that gives the action its node itself, while the other one gives it a child: there the
component of the action has to be the function that is left of the side at the target. -/
def KeepsItself (target : ℕ) (onL onR : Branch) (F : Fn P → Fn P → Fn P × Fn P)
    (tL tR : DTree (ℕ × Leaf P)) : Prop :=
  (onL = .ITSELF → onR ≠ .ITSELF → ∀ x,
    (F (den (tL.after target x)) (sideFn target onR (den (tR.after target x)))).1 x = den tL x) ∧
  (onR = .ITSELF → onL ≠ .ITSELF → ∀ x,
    (F (sideFn target onL (den (tL.after target x))) (den (tR.after target x))).2 x = den tR x)

theorem den_after (t : DTree (ℕ × Leaf P)) (target : ℕ) (x : ℕ → Bool) :
    den (t.after target x) x = den t x := congrArg Prod.snd (DTree.eval_after t x)

theorem lockstepped_acts_iff {prefL onL prefR onR : Branch} {parentL parentR : ℤ}
    {F : Fn P → Fn P → Fn P × Fn P} {tL tR u v : DTree (ℕ × Leaf P)} {M : ℕ}
    (h : Lockstepped target (MapsBoth F) prefL onL prefR onR tL tR parentL parentR u v)
    (hprefL : prefL = .LR ∨ prefL = .RL) (hprefR : prefR = .LR ∨ prefR = .RL)
    (honL : ActionSide onL) (honR : ActionSide onR) (hsL : tL.Sorted M) (hsR : tR.Sorted M)
    (htarget : target < M) :
    (∀ x, den u x =
        (lockstepFn target onL onR F (den (tL.after target x)) (den (tR.after target x))).1 x ∧
      den v x =
        (lockstepFn target onL onR F (den (tL.after target x)) (den (tR.after target x))).2 x) ↔
      KeepsItself target onL onR F tL tR := by
  have hden := fun x => h.den_eq hprefL hprefR honL honR hsL hsR htarget x
  unfold KeepsItself
  constructor
  · intro hacts
    constructor
    · rintro rfl hR x
      have hx := (hden x).1
      rw [if_pos ⟨rfl, hR⟩, (hacts x).1, den_after] at hx
      exact hx
    · rintro rfl hL x
      have hx := (hden x).2
      rw [if_pos ⟨rfl, hL⟩, (hacts x).2, den_after] at hx
      exact hx
  · rintro ⟨hkeepL, hkeepR⟩ x
    obtain ⟨hu, hv⟩ := hden x
    constructor
    · rw [hu]
      split
      · rename_i hmixed
        obtain ⟨rfl, hR⟩ := hmixed
        exact (den_after tL target x).trans (hkeepL rfl hR x).symm
      · rfl
    · rw [hv]
      split
      · rename_i hmixed
        obtain ⟨rfl, hL⟩ := hmixed
        exact (den_after tR target x).trans (hkeepR rfl hL x).symm
      · rfl

/-- Both operations act at the target and nowhere else, up to the side of a lockstep that gives the
action its node itself alone. -/
theorem combinators_act_iff {m : Process P} (hs : Settled D isPrime m.globals)
    (htarget : target < m.globals.kernel.env.bddvarnum) :
    -- `mtbdd_with_traverse_to`
    (∀ (F : Fn P → Fn P) (action : ℕ → Code P ℕ) (pref actionOn : Branch) (n fuel : ℕ)
      (t : DTree (ℕ × Leaf P)),
      Performs D isPrime m.globals.kernel.env.bddvarnum target (Maps F) action →
      pref = .LR ∨ pref = .RL → Diagram D m.globals n t → target < fuel →
      Undisturbed ((Code.mtbddWithTraverseTo D isPrime target action pref actionOn fuel n).run m) →
      ∃ r m' u, (Code.mtbddWithTraverseTo D isPrime target action pref actionOn fuel n).run m =
          .value r m' ∧ m'.globals.kernel.Unfolds D r u ∧
        ∀ x, den u x = placed target actionOn (den (t.after target x))
          (F (sideFn target actionOn (den (t.after target x)))) x) ∧
    -- `mtbdd_with_lockstep_to`
    (∀ (F : Fn P → Fn P → Fn P × Fn P) (action : ℕ → ℕ → Code P (ℕ × ℕ))
      (prefL onL prefR onR : Branch) (a b fuel : ℕ) (tL tR : DTree (ℕ × Leaf P)),
      PerformsBoth D isPrime m.globals.kernel.env.bddvarnum target (MapsBoth F) action →
      prefL = .LR ∨ prefL = .RL → prefR = .LR ∨ prefR = .RL → ActionSide onL → ActionSide onR →
      Diagram D m.globals a tL → Diagram D m.globals b tR → 2 * target < fuel →
      Undisturbed ((Code.mtbddWithLockstepTo D isPrime target action prefL onL prefR onR fuel
        a b).run m) →
      ∃ r m' u v, (Code.mtbddWithLockstepTo D isPrime target action prefL onL prefR onR fuel
          a b).run m = .value r m' ∧
        m'.globals.kernel.Unfolds D r.1 u ∧ m'.globals.kernel.Unfolds D r.2 v ∧
        ((∀ x, den u x = (lockstepFn target onL onR F (den (tL.after target x))
              (den (tR.after target x))).1 x ∧
            den v x = (lockstepFn target onL onR F (den (tL.after target x))
              (den (tR.after target x))).2 x) ↔
          KeepsItself target onL onR F tL tR)) := by
  constructor
  · intro F action pref actionOn n fuel t haction hpref hn hfuel hrun
    obtain ⟨r, m', hvalue, -, u, hu, hr⟩ := (mtbddWithTraverseTo_yields hs hn htarget haction
      hfuel).run_value rfl hrun.ok hrun.stays
    exact ⟨r, m', u, hvalue, hr, fun x => hu.den_eq hpref hn.sorted htarget x⟩
  · intro F action prefL onL prefR onR a b fuel tL tR haction hprefL hprefR honL honR ha hb hfuel
      hrun
    have htwo : ∀ {pref : Branch}, pref = .LR ∨ pref = .RL → ¬ OneSided pref := by
      rintro _ (rfl | rfl) (h | h) <;> exact nomatch h
    have henough : Enough target prefL prefR fuel tL tR
        (rootParent m.globals.kernel.env.bddvarnum tL)
        (rootParent m.globals.kernel.env.bddvarnum tR) :=
      ⟨fun h => absurd h (htwo hprefL), fun h => absurd h (htwo hprefR), by omega⟩
    obtain ⟨r, m', hvalue, -, u, v, huv, hu, hv⟩ := (mtbddWithLockstepTo_yields hs ha hb htarget
      haction (.inr henough)).run_value rfl hrun.ok hrun.stays
    exact ⟨r, m', u, v, hvalue, hu, hv,
      lockstepped_acts_iff huv hprefL hprefR honL honR ha.sorted hb.sorted htarget⟩

/-- Both children of the first variable are `1` once the constant `1` is the LOW one. -/
example : (match
      (Code.mtbddWithTraverseTo intDomain trialDivision 0 (fun _ => pure 1) .LR .L 1 2).run
        (Globals.init twoVariables).start with
    | .value r _ => r
    | _ => 0) = 1 := by
  decide +kernel

/-! ## Two variables -/

theorem pure_performs (D : MtbddDomain P) (isPrime : ℕ → Bool) (M target : ℕ) :
    Performs D isPrime M target (Maps id) fun n => pure n :=
  fun _ _ t hs hn _ _ => pure_yields ⟨.refl hs, t, rfl, hn.unfolds⟩

/-- The action that exchanges its arguments. -/
def exchange (a b : ℕ) : Code P (ℕ × ℕ) := pure (b, a)

theorem exchange_performs (D : MtbddDomain P) (isPrime : ℕ → Bool) (M target : ℕ) :
    PerformsBoth D isPrime M target (MapsBoth fun f g => (g, f)) exchange :=
  fun _ _ _ ta tb hs ha hb _ _ _ _ => pure_yields ⟨.refl hs, tb, ta, rfl, hb.unfolds, ha.unfolds⟩

/-- The identity on the first variable, and an exchange of the two variables. -/
theorem twoVariables_act :
    (∃ r m' u, (Code.mtbddWithTraverseTo intDomain trialDivision 1 (fun n => pure n) .LR .ITSELF 2
        2).run (Globals.init twoVariables).start = .value r m' ∧
      m'.globals.kernel.Unfolds intDomain r u ∧ ∀ x, den u x = den (variableTree 0) x) ∧
    ∃ r m' u v, (Code.mtbddWithLockstepTo intDomain trialDivision 1 exchange .LR .ITSELF .RL .ITSELF
        3 2 4).run (Globals.init twoVariables).start = .value r m' ∧
      m'.globals.kernel.Unfolds intDomain r.1 u ∧ m'.globals.kernel.Unfolds intDomain r.2 v ∧
      ∀ x, den u x = den (variableTree 1) x ∧ den v x = den (variableTree 0) x := by
  have h0 := twoVariables_diagram 0 (by decide)
  have h1 := twoVariables_diagram 1 (by decide)
  have htarget : 1 < (Globals.init twoVariables).start.globals.kernel.env.bddvarnum :=
    twoVariables_varnum ▸ (by decide : 1 < 2)
  have hact := combinators_act_iff (D := intDomain) (m := (Globals.init twoVariables).start)
    twoVariables_reachable.settled htarget
  obtain ⟨r, m', u, hvalue, hu, hden⟩ := hact.1 id _ .LR .ITSELF 2 2 (variableTree 0)
    (pure_performs _ _ _ 1) (.inl rfl) h0 (by decide) (undisturbed_of_calm (by decide +kernel))
  obtain ⟨r', m'', v, w, hvalue', hv, hw, hiff⟩ := hact.2 _ _ .LR .ITSELF .RL .ITSELF 2 4 3
    (variableTree 0) (variableTree 1) (exchange_performs _ _ _ 1) (.inl rfl) (.inr rfl) (.inr rfl)
    (.inr rfl) h0 h1 (by decide) (undisturbed_of_calm (by decide +kernel))
  refine ⟨⟨r, m', u, hvalue, hu, fun x => ?_⟩, r', m'', v, w, hvalue', hv, hw, fun x => ?_⟩
  · rw [hden x, ← den_after (variableTree 0) 1 x]
    rfl
  · obtain ⟨hx, hx'⟩ := hiff.mpr ⟨fun _ h => absurd rfl h, fun _ h => absurd rfl h⟩ x
    rw [hx, hx', ← den_after (variableTree 1) 1 x, ← den_after (variableTree 0) 1 x]
    exact ⟨rfl, rfl⟩

/-- The constant of the left side is kept, and not exchanged for the LOW child of the right one. -/
theorem exchange_keeps_itself : ∃ r m' u v,
    (Code.mtbddWithLockstepTo intDomain trialDivision 0 exchange .LR .ITSELF .LR .L 1 0 1).run
      (Globals.init twoVariables).start = .value r m' ∧
    m'.globals.kernel.Unfolds intDomain r.1 u ∧ m'.globals.kernel.Unfolds intDomain r.2 v ∧
    ¬ ∀ x, den u x = (lockstepFn 0 .ITSELF .L (fun f g => (g, f)) (fun _ => Leaf.const false)
          (fun _ => Leaf.const true)).1 x ∧
        den v x = (lockstepFn 0 .ITSELF .L (fun f g => (g, f)) (fun _ => Leaf.const false)
          (fun _ => Leaf.const true)).2 x := by
  have hconst : ∀ b : Bool, Diagram intDomain (Globals.init twoVariables) b.toNat
      (.leaf (b.toNat, .const b)) := fun b =>
    ⟨⟨.inl (BddState.Reads.toNat_lt b), .leaf (.const b)⟩, trivial⟩
  have htarget : 0 < (Globals.init twoVariables).start.globals.kernel.env.bddvarnum :=
    twoVariables_varnum ▸ (by decide : 0 < 2)
  have henough : Enough 0 .LR .LR 1 (.leaf (0, .const false) : DTree (ℕ × Leaf UInt32))
      (.leaf (1, .const true)) (rootParent (Globals.init twoVariables).kernel.env.bddvarnum
        (.leaf (0, .const false) : DTree (ℕ × Leaf UInt32)))
      (rootParent (Globals.init twoVariables).kernel.env.bddvarnum
        (.leaf (1, .const true) : DTree (ℕ × Leaf UInt32))) :=
    ⟨fun h => h.elim nofun nofun, fun h => h.elim nofun nofun, by omega⟩
  have hrun : Undisturbed ((Code.mtbddWithLockstepTo intDomain trialDivision 0 exchange .LR .ITSELF
      .LR .L 1 0 1).run (Globals.init twoVariables).start) :=
    undisturbed_of_calm (by decide +kernel)
  obtain ⟨r, m', hvalue, -, u, v, huv, hu, hv⟩ := (mtbddWithLockstepTo_yields
    twoVariables_reachable.settled (hconst false) (hconst true) htarget
    (exchange_performs _ _ _ 0) (.inr henough)).run_value rfl hrun.ok hrun.stays
  refine ⟨r, m', u, v, hvalue, hu, hv, fun hacts => ?_⟩
  have hkeeps := (lockstepped_acts_iff huv (.inl rfl) (.inl rfl) (.inr rfl) (.inl (.inl rfl))
    (hconst false).sorted (hconst true).sorted htarget).mp hacts
  exact nomatch hkeeps.1 rfl nofun fun _ => false

end MoToBuddy.Bdd
