import MoToBuddy.Bdd.Acts
import MoToBuddy.Bdd.Exhaust

/-!
# Descents into one child

A traversal with the descent L or R visits the assignments that take this side at every node of the
path, and at every level that is skipped above the target at the end of the path (`Follows`). Levels
that are skipped between two nodes of the path are not filled: there the result depends on the
diagram, and not only on its function (`mtbddWithTraverseTo_oneSided_iff`).
-/

namespace MoToBuddy.Bdd

open Decision Jumping

open Code (Branch virtualLevel)

/-- The descent into the LOW or the HIGH child. -/
def oneSide (side : Bool) : Branch := if side then .R else .L

section Trees

variable {L : Type*} {target level M : ℕ} {side : Bool} {parent : ℤ} {t low high : DTree L}
  {x : ℕ → Bool}

/-- All levels between two levels are on the side. -/
def AllOn (side : Bool) (x : ℕ → Bool) (above below : ℤ) : Prop :=
  ∀ j : ℕ, above < j → j < below → x j = side

/-- The assignment is on the side at every node that the descent comes to and at every level that it
fills. -/
def Follows (target : ℕ) (side : Bool) (x : ℕ → Bool) : DTree L → ℤ → Prop
  | .leaf _, parent => AllOn side x parent target
  | .node level low high, parent =>
    if target < level then AllOn side x parent target
    else level = target ∨
      x level = side ∧ if side then Follows target side x high level
        else Follows target side x low level

theorem follows_of_above (h : t.Above (target + 1)) :
    Follows target side x t parent ↔ AllOn side x parent target := by
  cases t with
  | leaf l => exact Iff.rfl
  | node level low high =>
    unfold Follows
    rw [if_pos (show target < level from h)]

/-- The first of the levels, and those after it. -/
theorem allOn_cons {k : ℕ} {below : ℤ} (h : (k : ℤ) < below) :
    AllOn side x (k - 1) below ↔ x k = side ∧ AllOn side x k below := by
  constructor
  · intro hall
    exact ⟨hall k (by omega) h, fun j hj => hall j (by omega)⟩
  · rintro ⟨hk, hall⟩ j hj hlt
    rcases Nat.lt_or_ge k j with hkj | hkj
    · exact hall j (by omega) hlt
    · rw [show j = k by omega]
      exact hk

/-- The step of a descent at the node that it works on. -/
theorem Filled.follows_iff (h : Filled target (oneSide side) parent t level low high)
    (hparent : -1 ≤ parent) :
    Follows target side x t parent ↔
      level = target ∨ x level = side ∧ Follows target side x (if side then high else low) level := by
  cases h with
  | real le =>
    rw [Follows, if_neg (Nat.not_lt.mpr le)]
    cases side <;> exact Iff.rfl
  | virtual above =>
    rw [follows_of_above above, ite_self, follows_of_above above]
    have hpref : oneSide side ≠ .LR ∧ oneSide side ≠ .RL := by
      cases side <;> exact ⟨nofun, nofun⟩
    unfold virtualLevel
    split
    · rename_i hfull
      have hlt : parent + 1 > target := (hfull.resolve_left hpref.1).resolve_left hpref.2
      refine iff_of_true (fun j hj hjt => ?_) (.inl rfl)
      omega
    · rename_i hfull
      push Not at hfull
      obtain ⟨k, hk⟩ : ∃ k : ℕ, parent + 1 = k := ⟨(parent + 1).toNat, by omega⟩
      obtain rfl : parent = k - 1 := by omega
      rw [hk, Int.toNat_natCast]
      rcases Nat.lt_or_ge k target with hlt | hge
      · rw [allOn_cons (by omega)]
        exact (or_iff_right (Nat.ne_of_lt hlt)).symm
      · refine iff_of_true (fun j hj hjt => ?_) (.inl (by omega))
        omega

/-- An assignment that is on the side at all levels follows the descent. -/
theorem follows_of_allOn (hs : t.Sorted M) (ha : ∀ level low high, t = .node level low high →
    parent < level) (h : AllOn side x parent target) : Follows target side x t parent := by
  induction t generalizing parent with
  | leaf l => exact h
  | node level low high ihl ihh =>
    obtain ⟨-, hal, hah, hl, hh⟩ := hs
    have hlt : parent < level := ha level low high rfl
    have hdeep : ∀ u : DTree L, u.Above (level + 1) → ∀ level' low' high',
        u = .node level' low' high' → (level : ℤ) < level' := by
      rintro _ hu level' low' high' rfl
      exact Int.ofNat_lt.mpr hu
    have hall : AllOn side x level target := fun j hj => h j (by omega)
    unfold Follows
    split
    · exact h
    · rcases Nat.lt_or_ge level target with hlevel | hlevel
      · refine .inr ⟨h level hlt (by omega), ?_⟩
        split
        · exact ihh hh (hdeep high hah) hall
        · exact ihl hl (hdeep low hal) hall
      · left
        omega

end Trees

variable {P : Type} {D : MtbddDomain P} {isPrime : ℕ → Bool} {target level M n : ℕ} {side : Bool}
  {actionOn : Branch} {parent : ℤ} {t r : DTree (ℕ × Leaf P)} {F : Fn P → Fn P}

/-- What a traversal makes of the function of its operand where it acts. -/
def actedFn (target : ℕ) (actionOn : Branch) (F : Fn P → Fn P) (t : DTree (ℕ × Leaf P)) : Fn P :=
  fun x => placed target actionOn (den (t.after target x))
    (F (sideFn target actionOn (den (t.after target x)))) x

/-- One step: the other child is kept, and the descent goes on in the one of its side. -/
theorem descend_den {low high u v : DTree (ℕ × Leaf P)} {x : ℕ → Bool}
    (filled : Filled target (oneSide side) parent t level low high) (hne : level ≠ target)
    (hparent : -1 ≤ parent)
    (ih : (Follows target side x (if side then high else low) level →
        den u x = actedFn target actionOn F (if side then high else low) x) ∧
      (¬ Follows target side x (if side then high else low) level →
        den u x = den (if side then high else low) x))
    (hv : v = if side then .join level low u else .join level u high) :
    (Follows target side x t parent → den v x = actedFn target actionOn F t x) ∧
      (¬ Follows target side x t parent → den v x = den t x) := by
  have hlt := Nat.lt_of_le_of_ne filled.le hne
  have hnode := congrFun filled.den x
  rw [den_node] at hnode
  have hden : den v x = if x level = side then den u x else den t x := by
    rw [hv, ← hnode]
    cases side <;> cases hx : x level <;> simp [den_join, hx]
  have hacted : x level = side → actedFn target actionOn F (if side then high else low) x =
      actedFn target actionOn F t x := by
    intro hx
    unfold actedFn
    rw [filled.after_lt hlt, hx]
    cases side <;> rfl
  have htake : x level = side → den (if side then high else low) x = den t x := by
    intro hx
    rw [← hnode, hx]
    cases side <;> rfl
  rw [filled.follows_iff hparent, or_iff_right hne, hden]
  constructor
  · rintro ⟨hx, hfollows⟩
    rw [if_pos hx, ih.1 hfollows, hacted hx]
  · intro hnot
    split
    · rename_i hx
      rw [ih.2 fun h => hnot ⟨hx, h⟩, htake hx]
    · rfl

/-- A descent into one child acts where the assignment follows it. -/
theorem Traversed.oneSided_den (h : Traversed target (Maps F) (oneSide side) actionOn t parent r)
    (hs : t.Sorted M) (htarget : target < M) (hparent : -1 ≤ parent) (x : ℕ → Bool) :
    (Follows target side x t parent → den r x = actedFn target actionOn F t x) ∧
      (¬ Follows target side x t parent → den r x = den t x) := by
  induction h with
  | act filled acted =>
    rw [filled.follows_iff hparent]
    refine ⟨fun _ => ?_, fun h => absurd (.inl rfl) h⟩
    rw [actedFn, filled.after_target, ← filled.den, acted.den_eq (filled.node_sorted hs htarget)]
  | @low t low high u parent level left filled above _ ih =>
    obtain rfl : side = false := by cases side <;> first | rfl | exact nomatch left
    exact descend_den filled above hparent (ih (filled.sorted hs).1 (by omega)) rfl
  | @high t low high u parent level right filled above _ ih =>
    obtain rfl : side = true := by cases side <;> first | rfl | exact nomatch right
    exact descend_den filled above hparent (ih (filled.sorted hs).2 (by omega)) rfl
  | both left right =>
    cases side
    · exact absurd rfl left
    · exact absurd rfl right

theorem neg_one_le_rootParent {L : Type*} (varnum : ℕ) (t : DTree L) : -1 ≤ rootParent varnum t := by
  cases t <;> simp only [rootParent] <;> omega

/-- At the root, the side at all levels means that the descent is followed. -/
theorem follows_root {varnum : ℕ} {x : ℕ → Bool} (hs : t.Sorted M)
    (h : AllOn side x (rootParent varnum t) target) :
    Follows target side x t (rootParent varnum t) := by
  apply follows_of_allOn hs _ h
  rintro level low high rfl
  show (level : ℤ) - 1 < level
  omega

/-- The operation acts exactly where all levels from the root to the target are on the side, if and
only if the action changes nothing at the other assignments that follow the descent: those that
leave it at a level that it skips between two nodes. -/
theorem mtbddWithTraverseTo_oneSided_iff {m : Process P} (hs : Settled D isPrime m.globals)
    (hn : Diagram D m.globals n t) (htarget : target < m.globals.kernel.env.bddvarnum)
    {action : ℕ → Code P ℕ}
    (haction : Performs D isPrime m.globals.kernel.env.bddvarnum target (Maps F) action)
    {fuel : ℕ} (hfuel : target < fuel)
    (hrun : Undisturbed ((Code.mtbddWithTraverseTo D isPrime target action (oneSide side) actionOn
      fuel n).run m)) :
    let parent := rootParent m.globals.kernel.env.bddvarnum t
    ∃ r m' u, (Code.mtbddWithTraverseTo D isPrime target action (oneSide side) actionOn fuel n).run m =
        .value r m' ∧ m'.globals.kernel.Unfolds D r u ∧
      ((∀ x, (AllOn side x parent target → den u x = actedFn target actionOn F t x) ∧
          (¬ AllOn side x parent target → den u x = den t x)) ↔
        ∀ x, Follows target side x t parent → ¬ AllOn side x parent target →
          actedFn target actionOn F t x = den t x) := by
  intro parent
  obtain ⟨r, m', hvalue, -, u, hu, hr⟩ := (mtbddWithTraverseTo_yields hs hn htarget haction
    hfuel).run_value rfl hrun.ok hrun.stays
  have hden := hu.oneSided_den hn.sorted htarget (neg_one_le_rootParent _ t)
  refine ⟨r, m', u, hvalue, hr, fun hacts x hfollows hnot => ?_, fun hsame x => ⟨fun hall => ?_,
    fun hnot => ?_⟩⟩
  · rw [← (hden x).1 hfollows, (hacts x).2 hnot]
  · exact (hden x).1 (follows_root hn.sorted hall)
  · by_cases hfollows : Follows target side x t parent
    · rw [(hden x).1 hfollows, hsame x hfollows hnot]
    · exact (hden x).2 hfollows

/-- The constant `1` is put below the LOW child of the first variable. -/
example : (match
      (Code.mtbddWithTraverseTo intDomain trialDivision 1 (fun _ => pure 1) .L .ITSELF 2 2).run
        (Globals.init twoVariables).start with
    | .value r _ => r
    | _ => 0) = 1 := by
  decide +kernel

/-- The action that returns the constant `1`. -/
theorem one_performs (D : MtbddDomain P) (isPrime : ℕ → Bool) (M target : ℕ) :
    Performs D isPrime M target (Maps fun _ _ => .const true) fun _ => pure 1 :=
  fun _ _ _ hs _ _ _ => pure_yields ⟨.refl hs, .leaf (1, .const true), rfl, .leaf (.const true)⟩

/-- Where the first variable is `0` the result is the constant `1`. -/
theorem twoVariables_oneSided : ∃ r m' u,
    (Code.mtbddWithTraverseTo intDomain trialDivision 1 (fun _ => pure 1) .L .ITSELF 2 2).run
      (Globals.init twoVariables).start = .value r m' ∧ m'.globals.kernel.Unfolds intDomain r u ∧
    ∀ x, x 0 = false → den u x = .const true := by
  have h0 := twoVariables_diagram 0 (by decide)
  have htarget : 1 < (Globals.init twoVariables).start.globals.kernel.env.bddvarnum :=
    twoVariables_varnum ▸ (by decide : 1 < 2)
  have hrun : Undisturbed ((Code.mtbddWithTraverseTo intDomain trialDivision 1 (fun _ => pure 1)
      (oneSide false) .ITSELF 2 2).run (Globals.init twoVariables).start) :=
    undisturbed_of_calm (by decide +kernel)
  obtain ⟨r, m', u, hvalue, hu, hiff⟩ := mtbddWithTraverseTo_oneSided_iff
    twoVariables_reachable.settled h0 htarget (one_performs _ _ _ 1) (by decide) hrun
  -- the only level above the target is that of the root
  have hall : ∀ x : ℕ → Bool, x 0 = false →
      AllOn false x (rootParent (Globals.init twoVariables).kernel.env.bddvarnum (variableTree 0))
        (1 : ℕ) := by
    intro x hx j hj hlt
    rw [show j = 0 by omega]
    exact hx
  refine ⟨r, m', u, hvalue, hu, fun x hx => (hiff.mpr (fun y hfollows hnot => ?_) x).1 (hall x hx)⟩
  rcases hfollows with h | ⟨hy, -⟩
  · exact absurd h (by decide)
  · exact absurd (hall y hy) hnot

/-! ## A level that is skipped -/

/-- Three variables, and the node `8` with the third variable as its LOW child. -/
def threeVariables : BddState UInt32 :=
  ([.setvarnum 3, .makenode 0 6 0, .pushref 8] : List (TableCall UInt32)).foldl
    (TableCall.apply intDomain trialDivision) (bddInit 23 3)

theorem threeVariables_settled : Settled intDomain trialDivision (Globals.init threeVariables) := by
  have hsound : Sound intDomain trialDivision threeVariables := by
    apply foldl_sound (bddInit_sound 3 ⟨by decide, by decide, by decide⟩)
    simp [TableCall.Valid, maxlevel]
  exact ⟨hsound.table, hsound.check, by decide +kernel⟩

/-- The tree of node `8`. -/
def skippingTree : DTree (ℕ × Leaf UInt32) := .node 0 (variableTree 2) (.leaf (0, .const false))

theorem threeVariables_diagram :
    Diagram intDomain (Globals.init threeVariables) 8 skippingTree := by
  have hkey : threeVariables.key 8 = ⟨some 6, 0, 0⟩ := by decide +kernel
  have hnum : (Globals.init threeVariables).kernel.env.bddvarnum = 3 := by decide +kernel
  refine ⟨⟨.inr ⟨8, .inr (by decide +kernel), .refl (by decide +kernel)⟩, ?_⟩, ?_⟩
  · exact .node (by decide) hkey (by decide)
      (.node (by decide) (by decide +kernel : threeVariables.key 6 = ⟨some 0, 1, 2⟩) (by decide)
        (.leaf (.const false)) (.leaf (.const true))) (.leaf (.const false))
  · rw [hnum]
    exact ⟨by decide, show 1 ≤ 2 by decide, trivial, ⟨by decide, trivial, trivial, trivial, trivial⟩,
      trivial⟩

/-- The action also acts where the level between the two nodes is `1`. -/
theorem threeVariables_acts_skipped : ∃ r m' u,
    (Code.mtbddWithTraverseTo intDomain trialDivision 2 (fun _ => pure 1) .L .ITSELF 3 8).run
      (Globals.init threeVariables).start = .value r m' ∧
    m'.globals.kernel.Unfolds intDomain r u ∧
    ¬ ∀ x, (AllOn false x (rootParent (Globals.init threeVariables).kernel.env.bddvarnum
          skippingTree) (2 : ℕ) →
        den u x = actedFn 2 .ITSELF (fun _ _ => .const true) skippingTree x) ∧
      (¬ AllOn false x (rootParent (Globals.init threeVariables).kernel.env.bddvarnum skippingTree)
        (2 : ℕ) → den u x = den skippingTree x) := by
  have htarget : 2 < (Globals.init threeVariables).kernel.env.bddvarnum := by decide +kernel
  have hrun : Undisturbed ((Code.mtbddWithTraverseTo intDomain trialDivision 2 (fun _ => pure 1)
      (oneSide false) .ITSELF 3 8).run (Globals.init threeVariables).start) :=
    undisturbed_of_calm (by decide +kernel)
  obtain ⟨r, m', hvalue, -, u, hu, hr⟩ := (mtbddWithTraverseTo_yields threeVariables_settled
    threeVariables_diagram htarget (one_performs _ _ _ 2) (by decide)).run_value rfl hrun.ok
    hrun.stays
  refine ⟨r, m', u, hvalue, hr, fun hacts => ?_⟩
  have hfollows : ∀ parent, Follows 2 false (· = 1) skippingTree parent := by
    simp [skippingTree, variableTree, Follows]
  have hden := (hu.oneSided_den threeVariables_diagram.sorted htarget
    (neg_one_le_rootParent _ _) (· = 1)).1 (hfollows _)
  have hnot := (hacts (· = 1)).2 fun hall => absurd (hall 1 (by decide) (by decide)) (by decide)
  rw [hden] at hnot
  exact nomatch hnot

end MoToBuddy.Bdd
