import MoToBuddy.Bdd.Traverse
import MoToBuddy.Bdd.Plain

/-!
# Lockstep traversals (`mtbdd_with_lockstep_to`)

`Lockstepped` says what `lockstep` does to the trees of its two operands. `lockstep_yields` is the
refinement. A side with a descent into one child stays in place in one of the two calls, so that it
gets to the target only if it is there from the start (`Arrives`).
-/

namespace MoToBuddy.Bdd

open Decision Jumping

open Code (Branch virtualLevel)

section Trees

variable {L : Type*} {target level M : ℕ} {pref prefL onL prefR onR : Branch}
  {parent parentL parentR : ℤ} {t tL tR low high rL rR : DTree L}

/-- The child that a descent takes in the first of the two calls: the node itself stays in place on
a side that is not taken. -/
def takeLow (pref : Branch) (level : ℕ) (low high : DTree L) : DTree L :=
  if pref = .R then .node level low high else low

def takeHigh (pref : Branch) (level : ℕ) (low high : DTree L) : DTree L :=
  if pref = .L then .node level low high else high

/-- What the action gets of a node at the target. -/
def sideOf (target : ℕ) (actionOn : Branch) (low high : DTree L) : DTree L :=
  match actionOn with
  | .L => low
  | .R => high
  | _ => .node target low high

/-- The node with a new side. A side that is the node itself stays what it is. -/
noncomputable def withSide (target : ℕ) (actionOn : Branch) (low high u : DTree L) : DTree L :=
  match actionOn with
  | .L => .join target u high
  | .R => .join target low u
  | _ => .node target low high

/-- What `lockstep` returns at the target. -/
def ActedOnBoth (target : ℕ) (A : DTree L → DTree L → DTree L → DTree L → Prop)
    (onL onR : Branch) (lowL highL lowR highR rL rR : DTree L) : Prop :=
  if onL = .ITSELF ∧ onR = .ITSELF then A (.node target lowL highL) (.node target lowR highR) rL rR
  else ∃ uL uR, A (sideOf target onL lowL highL) (sideOf target onR lowR highR) uL uR ∧
    rL = withSide target onL lowL highL uL ∧ rR = withSide target onR lowR highR uR

/-- What a lockstep returns for trees that were reached from the levels `parentL` and `parentR`. -/
inductive Lockstepped (target : ℕ) (A : DTree L → DTree L → DTree L → DTree L → Prop)
    (prefL onL prefR onR : Branch) : DTree L → DTree L → ℤ → ℤ → DTree L → DTree L → Prop
  | act {tL tR lowL highL lowR highR rL rR : DTree L} {parentL parentR : ℤ}
      (left : Filled target prefL parentL tL target lowL highL)
      (right : Filled target prefR parentR tR target lowR highR)
      (acted : ActedOnBoth target A onL onR lowL highL lowR highR rL rR) :
      Lockstepped target A prefL onL prefR onR tL tR parentL parentR rL rR
  | both {tL tR lowL highL lowR highR uL uR vL vR : DTree L} {parentL parentR : ℤ} {level : ℕ}
      (left : Filled target prefL parentL tL level lowL highL)
      (right : Filled target prefR parentR tR level lowR highR) (above : level ≠ target)
      (first : Lockstepped target A prefL onL prefR onR (takeLow prefL level lowL highL)
        (takeLow prefR level lowR highR) level level uL uR)
      (second : Lockstepped target A prefL onL prefR onR (takeHigh prefL level lowL highL)
        (takeHigh prefR level lowR highR) level level vL vR) :
      Lockstepped target A prefL onL prefR onR tL tR parentL parentR (.join level uL vL)
        (.join level uR vR)
  | left {tL tR lowL highL lowR highR uL uR vL vR : DTree L} {parentL parentR : ℤ}
      {level levelR : ℕ} (left : Filled target prefL parentL tL level lowL highL)
      (right : Filled target prefR parentR tR levelR lowR highR) (lt : level < levelR)
      (first : Lockstepped target A prefL onL prefR onR (takeLow prefL level lowL highL) tR
        level parentR uL uR)
      (second : Lockstepped target A prefL onL prefR onR (takeHigh prefL level lowL highL) tR
        level parentR vL vR) :
      Lockstepped target A prefL onL prefR onR tL tR parentL parentR (.join level uL vL)
        (.join level uR vR)
  | right {tL tR lowL highL lowR highR uL uR vL vR : DTree L} {parentL parentR : ℤ}
      {level levelL : ℕ} (left : Filled target prefL parentL tL levelL lowL highL)
      (right : Filled target prefR parentR tR level lowR highR) (lt : level < levelL)
      (first : Lockstepped target A prefL onL prefR onR tL (takeLow prefR level lowR highR)
        parentL level uL uR)
      (second : Lockstepped target A prefL onL prefR onR tL (takeHigh prefR level lowR highR)
        parentL level vL vR) :
      Lockstepped target A prefL onL prefR onR tL tR parentL parentR (.join level uL vL)
        (.join level uR vR)

/-- The level of the node that a traversal works on. -/
def fillLevel (target : ℕ) (pref : Branch) (parent : ℤ) : DTree L → ℕ
  | .leaf _ => virtualLevel target pref parent
  | .node level _ _ => if level ≤ target then level else virtualLevel target pref parent

theorem Filled.level_eq (h : Filled target pref parent t level low high) :
    fillLevel target pref parent t = level := by
  cases h with
  | real le => exact if_pos le
  | virtual above =>
    cases t with
    | leaf l => rfl
    | node level low high => exact if_neg (Nat.not_le.mpr above)

/-- One of the children is not taken. -/
def OneSided (pref : Branch) : Prop := pref = .L ∨ pref = .R

/-- A side takes both children, or it is at the target. -/
def Arrives (target : ℕ) (pref : Branch) (parent : ℤ) (t : DTree L) : Prop :=
  OneSided pref → fillLevel target pref parent t = target

/-- A node above the target that stays in place does not arrive. -/
theorem not_arrives_node (hpref : OneSided pref) (le : level ≤ target) (hne : level ≠ target) :
    ¬ Arrives target pref parent (.node level low high) := by
  intro h
  have hlevel := h hpref
  rw [fillLevel, if_pos le] at hlevel
  exact hne hlevel

/-- One of the two calls works on the node again if one child is not taken. -/
theorem not_arrives_take (hpref : ¬ Arrives target pref parent t)
    (h : Filled target pref parent t level low high) :
    ¬ Arrives target pref level (takeLow pref level low high) ∨
      ¬ Arrives target pref level (takeHigh pref level low high) := by
  obtain ⟨hone, hne⟩ := Classical.not_imp.mp hpref
  rw [h.level_eq] at hne
  rcases hone with rfl | rfl
  · right
    exact not_arrives_node (.inl rfl) h.le hne
  · left
    exact not_arrives_node (.inr rfl) h.le hne

/-- Nothing is ever returned if a side does not arrive. -/
theorem Lockstepped.arrives {A : DTree L → DTree L → DTree L → DTree L → Prop}
    (h : Lockstepped target A prefL onL prefR onR tL tR parentL parentR rL rR) :
    Arrives target prefL parentL tL ∧ Arrives target prefR parentR tR := by
  induction h with
  | act left right _ =>
    exact ⟨fun _ => left.level_eq, fun _ => right.level_eq⟩
  | both left right _ _ _ ihl ihh =>
    constructor
    · by_contra hL
      exact (not_arrives_take hL left).elim (· ihl.1) (· ihh.1)
    · by_contra hR
      exact (not_arrives_take hR right).elim (· ihl.2) (· ihh.2)
  | left left right _ _ _ ihl ihh =>
    refine ⟨?_, ihl.2⟩
    by_contra hL
    exact (not_arrives_take hL left).elim (· ihl.1) (· ihh.1)
  | right left right _ _ _ ihl ihh =>
    refine ⟨ihl.1, ?_⟩
    by_contra hR
    exact (not_arrives_take hR right).elim (· ihl.2) (· ihh.2)

/-- The children that a descent takes are sorted. -/
theorem Filled.take_sorted (h : Filled target pref parent t level low high) (hs : t.Sorted M)
    (htarget : target < M) :
    (takeLow pref level low high).Sorted M ∧ (takeHigh pref level low high).Sorted M := by
  have hnode := h.node_sorted hs htarget
  obtain ⟨hl, hh⟩ := h.sorted hs
  unfold takeLow takeHigh
  constructor <;> split <;> assumption

/-- A side that arrives gets nearer to the target, in both calls. -/
theorem Filled.take_lt (h : Filled target pref parent t level low high) (hs : t.Sorted M)
    (harrives : Arrives target pref parent t) (hne : level ≠ target) :
    (Arrives target pref level (takeLow pref level low high) ∧
      level < fillLevel target pref level (takeLow pref level low high)) ∧
    Arrives target pref level (takeHigh pref level low high) ∧
      level < fillLevel target pref level (takeHigh pref level low high) := by
  have hboth : ¬ OneSided pref := fun hone => hne (h.level_eq.symm.trans (harrives hone))
  have hlt : level < target := Nat.lt_of_le_of_ne h.le hne
  have hdeep : ∀ u : DTree L, u.Above (level + 1) → level < fillLevel target pref level u := by
    intro u hu
    obtain ⟨level', low', high', hu'⟩ := exists_filled target pref level u
    rw [hu'.level_eq]
    exact hu'.lt hu hlt
  have hlow : takeLow pref level low high = low := if_neg fun heq => hboth (.inr heq)
  have hhigh : takeHigh pref level low high = high := if_neg fun heq => hboth (.inl heq)
  rw [hlow, hhigh]
  exact ⟨⟨fun hone => absurd hone hboth, hdeep low (h.above hs).1⟩,
    fun hone => absurd hone hboth, hdeep high (h.above hs).2⟩

/-- At the root only trees from the target on arrive on a side with one child. -/
theorem arrives_root {varnum : ℕ} (htarget : target < varnum) :
    Arrives target pref (rootParent varnum t) t ↔ (OneSided pref → t.Above target) := by
  unfold Arrives
  refine imp_congr_right fun hone => ?_
  have hpref : pref ≠ .LR ∧ pref ≠ .RL := by rcases hone with rfl | rfl <;> exact ⟨nofun, nofun⟩
  cases t with
  | leaf l => simp [fillLevel, virtualLevel, rootParent, htarget]
  | node level low high =>
    show (if level ≤ target then level else virtualLevel target pref (level - 1)) = target ↔
      target ≤ level
    split
    · omega
    · simp [virtualLevel]
      omega

/-- Both sides arrive, and the fuel is enough for the levels that are left to them. -/
def Enough (target : ℕ) (prefL prefR : Branch) (fuel : ℕ) (tL tR : DTree L)
    (parentL parentR : ℤ) : Prop :=
  Arrives target prefL parentL tL ∧ Arrives target prefR parentR tR ∧
    2 * target < fillLevel target prefL parentL tL + fillLevel target prefR parentR tR + fuel

section Enough

variable {fuel levelR levelL : ℕ} {lowL highL lowR highR : DTree L}

theorem fillLevel_le (target : ℕ) (pref : Branch) (parent : ℤ) (t : DTree L) :
    fillLevel target pref parent t ≤ target := by
  obtain ⟨level, low, high, h⟩ := exists_filled target pref parent t
  rw [h.level_eq]
  exact h.le

theorem not_enough_zero : ¬ Enough target prefL prefR 0 tL tR parentL parentR := by
  rintro ⟨-, -, hlt⟩
  have hL := fillLevel_le target prefL parentL tL
  have hR := fillLevel_le target prefR parentR tR
  omega

theorem Enough.both (h : Enough target prefL prefR (fuel + 1) tL tR parentL parentR)
    (left : Filled target prefL parentL tL level lowL highL)
    (right : Filled target prefR parentR tR level lowR highR) (hne : level ≠ target)
    (hsL : tL.Sorted M) (hsR : tR.Sorted M) :
    Enough target prefL prefR fuel (takeLow prefL level lowL highL)
        (takeLow prefR level lowR highR) level level ∧
      Enough target prefL prefR fuel (takeHigh prefL level lowL highL)
        (takeHigh prefR level lowR highR) level level := by
  obtain ⟨harL, harR, hlt⟩ := h
  obtain ⟨⟨hlL, hltL⟩, hhL, hltL'⟩ := left.take_lt hsL harL hne
  obtain ⟨⟨hlR, hltR⟩, hhR, hltR'⟩ := right.take_lt hsR harR hne
  rw [left.level_eq, right.level_eq] at hlt
  exact ⟨⟨hlL, hlR, by omega⟩, hhL, hhR, by omega⟩

theorem Enough.left (h : Enough target prefL prefR (fuel + 1) tL tR parentL parentR)
    (left : Filled target prefL parentL tL level lowL highL) (hlt : level < target)
    (hsL : tL.Sorted M) :
    Enough target prefL prefR fuel (takeLow prefL level lowL highL) tR level parentR ∧
      Enough target prefL prefR fuel (takeHigh prefL level lowL highL) tR level parentR := by
  obtain ⟨harL, harR, hfuel⟩ := h
  obtain ⟨⟨hlL, hltL⟩, hhL, hltL'⟩ := left.take_lt hsL harL (Nat.ne_of_lt hlt)
  rw [left.level_eq] at hfuel
  exact ⟨⟨hlL, harR, by omega⟩, hhL, harR, by omega⟩

theorem Enough.right (h : Enough target prefL prefR (fuel + 1) tL tR parentL parentR)
    (right : Filled target prefR parentR tR level lowR highR) (hlt : level < target)
    (hsR : tR.Sorted M) :
    Enough target prefL prefR fuel tL (takeLow prefR level lowR highR) parentL level ∧
      Enough target prefL prefR fuel tL (takeHigh prefR level lowR highR) parentL level := by
  obtain ⟨harL, harR, hfuel⟩ := h
  obtain ⟨⟨hlR, hltR⟩, hhR, hltR'⟩ := right.take_lt hsR harR (Nat.ne_of_lt hlt)
  rw [right.level_eq] at hfuel
  exact ⟨⟨harL, hlR, by omega⟩, harL, hhR, by omega⟩

end Enough

end Trees

/-! ## The code -/

variable {P : Type} {D : MtbddDomain P} {isPrime : ℕ → Bool} {g g' : Globals P}
  {s : BddState P} {own : List ℕ} {n a b level target M : ℕ}
  {t ta tb tl th tL tR : DTree (ℕ × Leaf P)} {E : Prop}
  {α : Type} {Q : α → Globals P → Prop}

/-- What a call that returns two nodes has done. -/
def GivesBoth (D : MtbddDomain P) (isPrime : ℕ → Bool) (g : Globals P)
    (C : DTree (ℕ × Leaf P) → DTree (ℕ × Leaf P) → Prop) (r : ℕ × ℕ) (g' : Globals P) : Prop :=
  Within D isPrime [] g g' ∧ ∃ u v, C u v ∧ g'.kernel.Unfolds D r.1 u ∧ g'.kernel.Unfolds D r.2 v

/-- The contract of an action on two nodes. -/
def PerformsBoth (D : MtbddDomain P) (isPrime : ℕ → Bool) (M target : ℕ)
    (A : DTree (ℕ × Leaf P) → DTree (ℕ × Leaf P) → DTree (ℕ × Leaf P) → DTree (ℕ × Leaf P) → Prop)
    (action : ℕ → ℕ → Code P (ℕ × ℕ)) : Prop :=
  ∀ g a b ta tb, Settled D isPrime g → Rooted D g a ta → Rooted D g b tb → ta.Sorted M →
    tb.Sorted M → ta.Above target → tb.Above target →
    Yields (action a b) g (GivesBoth D isPrime g (A ta tb)) False

theorem GivesBoth.mono {C C' : DTree (ℕ × Leaf P) → DTree (ℕ × Leaf P) → Prop} {r : ℕ × ℕ}
    (h : GivesBoth D isPrime g C r g') (hC : ∀ u v, C u v → C' u v) :
    GivesBoth D isPrime g C' r g' := by
  obtain ⟨hw, u, v, huv, hu⟩ := h
  exact ⟨hw, u, v, hC u v huv, hu⟩

/-- Both results of a call are pushed. -/
theorem Within.pushBoth_yields {p : Code P α} (h : Within D isPrime own g g')
    (ha : g'.kernel.Unfolds D a ta) (hb : g'.kernel.Unfolds D b tb)
    (hf : ∀ g'', Within D isPrime (b :: a :: own) g g'' → Evo D g'.kernel g''.kernel →
      Rooted D g'' a ta → Rooted D g'' b tb → Yields p g'' Q E) :
    Yields (do Code.pushref a; Code.pushref b; p) g' Q E := by
  have hfirst := Rooted.pushed ha
  have hb' : BddState.Unfolds D (g'.kernel.pushref a) b tb := hb.congr fun m _ => ⟨rfl, fun _ _ => rfl⟩
  have hevo : Evo D g'.kernel ((g'.kernel.pushref a).pushref b) :=
    (Evo.refl g'.kernel).restack fun m hm => List.mem_cons_of_mem _ (List.mem_cons_of_mem _ hm)
  apply update_yields
  apply update_yields
  apply hf _ ((h.pushref a).pushref b) hevo _ (.pushed hb')
  exact hfirst.evo ((Evo.refl _).restack (List.subset_cons_self b _))

/-- The nodes of both pairs of results. -/
theorem lockstepBoth_yields {C C' : DTree (ℕ × Leaf P) → DTree (ℕ × Leaf P) → Prop}
    {low high : Code P (ℕ × ℕ)} (hlevel : level < maxlevel)
    (hlow : Yields low g (GivesBoth D isPrime g C) E)
    (hhigh : ∀ own g', Within D isPrime own g g' →
      Yields high g' (GivesBoth D isPrime g' C') E) :
    Yields (Code.lockstepBoth D isPrime low high level) g (GivesBoth D isPrime g fun rL rR =>
      ∃ uL uR vL vR, C uL uR ∧ C' vL vR ∧ rL = .join level uL vL ∧ rR = .join level uR vR) E := by
  unfold Code.lockstepBoth
  apply hlow.bind
  intro lo g₁ _ h₁
  obtain ⟨hw₁, uL, uR, hu, hloL, hloR⟩ := h₁
  apply hw₁.pushBoth_yields hloL hloR
  intro g₂ hw₂ _ hrL₂ hrR₂
  apply (hhigh _ g₂ hw₂).bind
  intro hi g₃ _ h₃
  obtain ⟨hw₃, vL, vR, hv, hhiL, hhiR⟩ := h₃
  apply (hw₂.call hw₃).pushBoth_yields hhiL hhiR
  intro g₄ hw₄ he₄ hsL₄ hsR₄
  have hrL₄ := hrL₂.evo (hw₃.evo.trans he₄)
  have hrR₄ := hrR₂.evo (hw₃.evo.trans he₄)
  apply hw₄.readref_yields rfl
  apply hw₄.readref_yields rfl
  apply (makenode_yields hw₄.settled hlevel hrL₄ hsL₄).bind
  intro outL g₅ _ h₅
  obtain ⟨hw₅, _, rfl, hoL⟩ := h₅
  apply (hw₄.call hw₅).pushref_yields hoL
  intro g₆ hw₆ he₆ hoL₆
  apply hw₆.readref_yields rfl
  apply hw₆.readref_yields rfl
  have he := hw₅.evo.trans he₆
  apply (makenode_yields hw₆.settled hlevel (hrR₄.evo he) (hsR₄.evo he)).bind
  intro outR g₇ _ h₇
  obtain ⟨hw₇, _, rfl, hoR⟩ := h₇
  apply (hw₆.call hw₇).readref_yields rfl
  apply (hw₆.call hw₇).popref_yields 5 (by simp)
  intro g₈ hw₈ hsame
  exact pure_yields ⟨hw₈, _, _, ⟨uL, uR, vL, vR, hu, hv, rfl, rfl⟩,
    hsame outL _ (hoL₆.evo hw₇.evo).unfolds, hsame outR _ hoR⟩

/-- The entry for a node that was made for a skipped level. -/
def virtualEntry (w n : ℕ) : List ℕ := if w ≠ n then [w] else []

theorem Within.trans {own' : List ℕ} {g'' : Globals P} (h : Within D isPrime own g g')
    (h' : Within D isPrime own' g' g'') : Within D isPrime (own' ++ own) g g'' := by
  refine ⟨h'.settled, h.evo.trans h'.evo, ?_⟩
  rw [h'.refstack, h.refstack, List.append_assoc]

section Virtual

variable {pref : Branch} {parent : ℤ}

/-- The node that is worked on, and its entry if it is not the operand. -/
theorem virtNode_yields (hs : Settled D isPrime g) (hn : Rooted D g n t)
    (hlevel : target < maxlevel) {f : ℕ → Code P α}
    (hf : ∀ w g' level low high, Within D isPrime (virtualEntry w n) g g' →
      Filled target pref parent t level low high → Rooted D g' w (.node level low high) →
      Yields (f w) g' Q E) :
    Yields (do
      let w ← Code.virtNode D isPrime target pref n parent
      Code.pushIf (w ≠ n) w
      f w) g Q E := by
  have hstep : Yields (Code.virtNode D isPrime target pref n parent) g (fun w g' =>
      Within D isPrime [] g g' ∧ ∃ level low high, Filled target pref parent t level low high ∧
        g'.kernel.Unfolds D w (.node level low high) ∧ (w = n → g' = g)) E := by
    unfold Code.virtNode
    apply below_yields hn hlevel
    by_cases habove : t.Above (target + 1)
    · rw [decide_eq_true habove, if_pos rfl]
      apply (virtualNode_yields hs (Nat.lt_of_le_of_lt (virtualLevel_le target pref parent) hlevel)
        hn).mono _ id
      intro w g' _ h
      obtain ⟨hw, _, rfl, hu⟩ := h
      exact ⟨hw, _, t, t, .virtual habove, hu, fun heq => absurd heq.symm (hw.ne_virtual hn hu)⟩
    · rw [decide_eq_false habove, if_neg Bool.false_ne_true]
      apply pure_yields
      cases t with
      | leaf l => exact absurd trivial habove
      | node level low high =>
        have hle : level ≤ target := Nat.lt_succ_iff.mp (Nat.not_le.mp habove)
        exact ⟨.refl hs, level, low, high, .real hle, hn.unfolds, fun _ => rfl⟩
  apply hstep.bind
  intro w g₁ _ h₁
  obtain ⟨hw₁, level, low, high, hfilled, hu, hsame⟩ := h₁
  by_cases hne : w = n
  · obtain rfl := hne
    obtain rfl := hsame rfl
    have hentry : Within D isPrime (virtualEntry w w) g₁ g₁ := by
      rw [virtualEntry, if_neg (not_not.mpr rfl)]
      exact hw₁
    have hrooted : Rooted D g₁ w (.node level low high) := by
      rw [← hn.unfolds.unique hu]
      exact hn
    simp only [ne_eq, not_true_eq_false, decide_false, Code.pushIf, Bool.false_eq_true, if_false]
    exact hf w g₁ level low high hentry hfilled hrooted
  · simp only [ne_eq, hne, not_false_eq_true, decide_true, Code.pushIf, if_true]
    apply hw₁.pushref_yields hu
    intro g₂ hw₂ _ hr₂
    rw [show [w] = virtualEntry w n from (if_pos hne).symm] at hw₂
    exact hf w g₂ level low high hw₂ hfilled hr₂

theorem popIf_yields {w : ℕ} (h : Within D isPrime (virtualEntry w n ++ own) g g')
    {f : Unit → Code P α}
    (hf : ∀ g'', Within D isPrime own g g'' →
      (∀ n t, g'.kernel.Unfolds D n t → g''.kernel.Unfolds D n t) → Yields (f ()) g'' Q E) :
    Yields (Code.popIf (w ≠ n) >>= f) g' Q E := by
  by_cases hne : w = n
  · simp only [virtualEntry, ne_eq, hne, not_true_eq_false, decide_false, Code.popIf,
      Bool.false_eq_true, if_false] at h ⊢
    exact hf g' h fun _ _ hu => hu
  · simp only [virtualEntry, ne_eq, hne, not_false_eq_true, decide_true, Code.popIf, if_true]
      at h ⊢
    exact h.popref_yields 1 (by simp) hf

end Virtual

section Lockstep

variable {A : DTree (ℕ × Leaf P) → DTree (ℕ × Leaf P) → DTree (ℕ × Leaf P) → DTree (ℕ × Leaf P) → Prop}
  {action : ℕ → ℕ → Code P (ℕ × ℕ)} {prefL onL prefR onR actionOn pref : Branch}
  {parentL parentR : ℤ} {low high lowL highL lowR highR u : DTree (ℕ × Leaf P)}

theorem actionSide_yields (hn : Rooted D g n (.node target low high)) {f : ℕ → Code P α}
    (hf : ∀ m, Rooted D g m (sideOf target actionOn low high) → Yields (f m) g Q E) :
    Yields (Code.actionSide actionOn n >>= f) g Q E := by
  obtain ⟨-, -, hlow, hhigh⟩ := hn.children
  unfold sideOf at hf
  cases actionOn with
  | L => exact look_yields (hf _ hlow)
  | R => exact look_yields (hf _ hhigh)
  | LR | RL | ITSELF => exact hf n hn

theorem putBack_yields (h : Within D isPrime own g g') (hnew : own[1]? = some a)
    (ha : Rooted D g' a u) (hn : Rooted D g' n (.node target low high))
    (hlevel : target < maxlevel) : Yields (Code.putBack D isPrime target actionOn n) g'
      (Gives D isPrime g' (· = withSide target actionOn low high u)) E := by
  obtain ⟨-, -, hlow, hhigh⟩ := hn.children
  unfold Code.putBack withSide
  cases actionOn with
  | L =>
    apply h.readref_yields hnew
    exact look_yields (makenode_yields h.settled hlevel ha hhigh)
  | R =>
    apply h.readref_yields hnew
    exact look_yields (makenode_yields h.settled hlevel hlow ha)
  | LR | RL | ITSELF => exact pure_yields ⟨.refl h.settled, _, rfl, hn.unfolds⟩

theorem sideOf_sorted (actionOn : Branch) (hs : (DTree.node target low high).Sorted M) :
    (sideOf target actionOn low high).Sorted M ∧ (sideOf target actionOn low high).Above target := by
  obtain ⟨-, hal, hah, hsl, hsh⟩ := id hs
  unfold sideOf
  cases actionOn with
  | L => exact ⟨hsl, hal.mono (Nat.le_succ target)⟩
  | R => exact ⟨hsh, hah.mono (Nat.le_succ target)⟩
  | LR | RL | ITSELF => exact ⟨hs, Nat.le_refl target⟩

/-- Both nodes are at the target. -/
theorem actBoth_yields (haction : PerformsBoth D isPrime M target A action)
    (hs : Settled D isPrime g) (ha : Rooted D g a (.node target lowL highL))
    (hb : Rooted D g b (.node target lowR highR)) (hsL : (DTree.node target lowL highL).Sorted M)
    (hsR : (DTree.node target lowR highR).Sorted M) (hlevel : target < maxlevel)
    {f : ℕ × ℕ → Code P α}
    (hf : ∀ r g', GivesBoth D isPrime g (ActedOnBoth target A onL onR lowL highL lowR highR) r g' →
      Yields (f r) g' Q E) :
    Yields (if onL = .ITSELF ∧ onR = .ITSELF then do
        let res ← action a b
        f res
      else do
        let out ← action (← Code.actionSide onL a) (← Code.actionSide onR b)
        Code.pushref out.1
        Code.pushref out.2
        let newL ← Code.putBack D isPrime target onL a
        Code.pushref newL
        let newR ← Code.putBack D isPrime target onR b
        Code.pushref newR
        let newL ← Code.readref 2
        let newR ← Code.readref 1
        Code.popref 4
        let res ← pure (newL, newR)
        f res) g Q E := by
  unfold ActedOnBoth at hf
  by_cases hitself : onL = .ITSELF ∧ onR = .ITSELF
  · simp only [if_pos hitself] at hf ⊢
    have hact : Yields (action a b) g (GivesBoth D isPrime g (A _ _)) E :=
      (haction g a b _ _ hs ha hb hsL hsR (Nat.le_refl target) (Nat.le_refl target)).mono
        (fun _ _ _ h => h) False.elim
    exact hact.bind fun r g' _ h => hf r g' h
  · simp only [if_neg hitself] at hf ⊢
    apply actionSide_yields ha
    intro inL hinL
    apply actionSide_yields hb
    intro inR hinR
    obtain ⟨hsideL, haboveL⟩ := sideOf_sorted onL hsL
    obtain ⟨hsideR, haboveR⟩ := sideOf_sorted onR hsR
    have hact : Yields (action inL inR) g (GivesBoth D isPrime g (A _ _)) E :=
      (haction g inL inR _ _ hs hinL hinR hsideL hsideR haboveL haboveR).mono (fun _ _ _ h => h)
        False.elim
    apply hact.bind
    intro out g₁ _ h₁
    obtain ⟨hw₁, uL, uR, huv, hu₁, hu₂⟩ := h₁
    apply hw₁.pushBoth_yields hu₁ hu₂
    intro g₂ hw₂ _ hr₁ hr₂
    apply (putBack_yields hw₂ rfl hr₁ (ha.evo hw₂.evo) hlevel).bind
    intro newL g₃ _ h₃
    obtain ⟨hw₃, _, rfl, hnewL⟩ := h₃
    apply (hw₂.call hw₃).pushref_yields hnewL
    intro g₄ hw₄ he₄ hnewL₄
    apply (putBack_yields hw₄ rfl (hr₂.evo (hw₃.evo.trans he₄)) (hb.evo hw₄.evo) hlevel).bind
    intro newR g₅ _ h₅
    obtain ⟨hw₅, _, rfl, hnewR⟩ := h₅
    apply (hw₄.call hw₅).pushref_yields hnewR
    intro g₆ hw₆ he₆ hnewR₆
    apply hw₆.readref_yields rfl
    apply hw₆.readref_yields rfl
    apply hw₆.popref_yields 4 (by simp)
    intro g₇ hw₇ hsame
    exact hf _ g₇ ⟨hw₇, _, _, ⟨uL, uR, huv, rfl, rfl⟩,
      hsame newL _ (hnewL₄.evo (hw₅.evo.trans he₆)).unfolds, hsame newR _ hnewR₆.unfolds⟩

/-- The results are kept while the entries for skipped levels are popped. -/
theorem lockstepEnd_yields {C : DTree (ℕ × Leaf P) → DTree (ℕ × Leaf P) → Prop} {wL wR : ℕ}
    {r : ℕ × ℕ} {g'' : Globals P}
    (h : Within D isPrime (virtualEntry wR b ++ virtualEntry wL a) g g')
    (hr : GivesBoth D isPrime g' C r g'') :
    Yields (do
      Code.pushref r.1
      Code.pushref r.2
      let r1 ← Code.readref 2
      let r2 ← Code.readref 1
      Code.popref 2
      Code.popIf (wR ≠ b)
      Code.popIf (wL ≠ a)
      Code.pushref r1
      Code.pushref r2
      Code.popref 2
      pure (r1, r2)) g'' (GivesBoth D isPrime g C) E := by
  obtain ⟨hw, u, v, huv, hu, hv⟩ := hr
  apply (h.call hw).pushBoth_yields hu hv
  intro g₁ hw₁ _ hr₁ hr₂
  apply hw₁.readref_yields rfl
  apply hw₁.readref_yields rfl
  apply hw₁.popref_yields 2 (by simp)
  intro g₂ hw₂ hsame₂
  apply popIf_yields hw₂
  intro g₃ hw₃ hsame₃
  rw [← List.append_nil (virtualEntry wL a)] at hw₃
  apply popIf_yields hw₃
  intro g₄ hw₄ hsame₄
  apply hw₄.pushBoth_yields (hsame₄ _ _ (hsame₃ _ _ (hsame₂ _ _ hr₁.unfolds)))
    (hsame₄ _ _ (hsame₃ _ _ (hsame₂ _ _ hr₂.unfolds)))
  intro g₅ hw₅ _ hr₁' hr₂'
  apply hw₅.popref_yields 2 (by simp)
  intro g₆ hw₆ hsame₆
  exact pure_yields ⟨hw₆, u, v, huv, hsame₆ _ _ hr₁'.unfolds, hsame₆ _ _ hr₂'.unfolds⟩

/-- The nodes that the two calls of a descent get. -/
theorem descend_yields (hn : Rooted D g n (.node level low high)) {f : ℕ → ℕ → Code P α}
    (hf : ∀ lo hi, Rooted D g lo (takeLow pref level low high) →
      Rooted D g hi (takeHigh pref level low high) → Yields (f lo hi) g Q E) :
    Yields (do
      let lo ← Code.descendLow pref n
      let hi ← Code.descendHigh pref n
      f lo hi) g Q E := by
  obtain ⟨-, -, hlow, hhigh⟩ := hn.children
  unfold takeLow takeHigh at hf
  unfold Code.descendLow Code.descendHigh Code.lowOf Code.highOf
  cases pref with
  | L => exact look_yields (hf _ n hlow hn)
  | R => exact look_yields (hf n _ hn hhigh)
  | LR | RL | ITSELF => exact look_yields (look_yields (hf _ _ hlow hhigh))

theorem lockstep_yields (haction : PerformsBoth D isPrime M target A action)
    (hlevel : target < maxlevel) (htarget : target < M) (fuel : ℕ) (hs : Settled D isPrime g)
    (ha : Rooted D g a tL) (hb : Rooted D g b tR) (hsL : tL.Sorted M) (hsR : tR.Sorted M)
    (hfuel : E ∨ Enough target prefL prefR fuel tL tR parentL parentR) :
    Yields (Code.lockstep D isPrime target action prefL onL prefR onR fuel a b parentL parentR) g
      (GivesBoth D isPrime g (Lockstepped target A prefL onL prefR onR tL tR parentL parentR))
      E := by
  induction fuel generalizing g a b tL tR parentL parentR with
  | zero => exact Prog.Yields.stuck (hfuel.resolve_right not_enough_zero)
  | succ fuel ih =>
    unfold Code.lockstep
    apply virtNode_yields hs ha hlevel
    intro wL g₁ levelL lowL highL hw₁ hfL hrL₁
    apply virtNode_yields hw₁.settled (hb.evo hw₁.evo) hlevel
    intro wR g₂ levelR lowR highR hw₂ hfR hrR
    have hrL := hrL₁.evo hw₂.evo
    have hw := hw₁.trans hw₂
    have hs₂ := hw.settled
    obtain ⟨htlL, hthL⟩ := hfL.take_sorted hsL htarget
    obtain ⟨htlR, hthR⟩ := hfR.take_sorted hsR htarget
    have hleL := hfL.le
    have hleR := hfR.le
    apply look_yields
    apply look_yields
    rw [hrL.children.2.1, hrR.children.2.1]
    dsimp only
    by_cases htop : levelL = target ∧ levelR = target
    · obtain ⟨rfl, rfl⟩ := htop
      rw [if_pos ⟨rfl, rfl⟩]
      apply actBoth_yields haction hs₂ hrL hrR (hfL.node_sorted hsL htarget)
        (hfR.node_sorted hsR htarget) hlevel
      intro r g₃ h₃
      exact lockstepEnd_yields hw (h₃.mono fun u v huv => .act hfL hfR huv)
    rw [if_neg htop]
    rcases Nat.lt_trichotomy levelL levelR with hlt | heq | hgt
    · rw [if_neg (Nat.ne_of_lt hlt), if_pos hlt]
      apply descend_yields hrL
      intro lo hi hlo hhi
      have henough := hfuel.imp_right fun h => h.left hfL (by omega) hsL
      have hR := (hb.evo hw₁.evo).evo hw₂.evo
      apply (lockstepBoth_yields (Nat.lt_of_le_of_lt hleL hlevel)
        (ih hs₂ hlo hR htlL hsR (henough.imp_right And.left)) fun _ g' hw' =>
        ih hw'.settled (hhi.evo hw'.evo) (hR.evo hw'.evo) hthL hsR
          (henough.imp_right And.right)).bind
      intro r g₃ _ h₃
      apply lockstepEnd_yields hw (h₃.mono _)
      rintro _ _ ⟨uL, uR, vL, vR, hu, hv, rfl, rfl⟩
      exact .left hfL hfR hlt hu hv
    · subst heq
      rw [if_pos rfl]
      have hne : levelL ≠ target := fun h => htop ⟨h, h⟩
      apply descend_yields hrL
      intro loL hiL hloL hhiL
      apply descend_yields hrR
      intro loR hiR hloR hhiR
      have henough := hfuel.imp_right fun h => h.both hfL hfR hne hsL hsR
      apply (lockstepBoth_yields (Nat.lt_of_le_of_lt hleL hlevel)
        (ih hs₂ hloL hloR htlL htlR (henough.imp_right And.left)) fun _ g' hw' =>
        ih hw'.settled (hhiL.evo hw'.evo) (hhiR.evo hw'.evo) hthL hthR
          (henough.imp_right And.right)).bind
      intro r g₃ _ h₃
      apply lockstepEnd_yields hw (h₃.mono _)
      rintro _ _ ⟨uL, uR, vL, vR, hu, hv, rfl, rfl⟩
      exact .both hfL hfR hne hu hv
    · rw [if_neg (Nat.ne_of_gt hgt), if_neg (Nat.not_lt.mpr (Nat.le_of_lt hgt))]
      apply descend_yields hrR
      intro lo hi hlo hhi
      have henough := hfuel.imp_right fun h => h.right hfR (by omega) hsR
      have hL := (ha.evo hw₁.evo).evo hw₂.evo
      apply (lockstepBoth_yields (Nat.lt_of_le_of_lt hleR hlevel)
        (ih hs₂ hL hlo hsL htlR (henough.imp_right And.left)) fun _ g' hw' =>
        ih hw'.settled (hL.evo hw'.evo) (hhi.evo hw'.evo) hsL hthR
          (henough.imp_right And.right)).bind
      intro r g₃ _ h₃
      apply lockstepEnd_yields hw (h₃.mono _)
      rintro _ _ ⟨uL, uR, vL, vR, hu, hv, rfl, rfl⟩
      exact .right hfL hfR hgt hu hv

/-! ## The operation -/

/-- A run that was not ended by reordering, and in which no exhaustion was reported. -/
structure Undisturbed {α : Type} (r : Result (Globals P) (Entry P) Command α) : Prop where
  ok : r.machine.Stays (·.kernel.Ok)
  stays : ∀ m, r ≠ .jump m

theorem Rooted.above_iff {k : ℕ} (h : Rooted D g n t) (hk : k ≤ maxlevel) :
    t.Above k ↔ n < 2 ∨ k ≤ g.kernel.level n := by
  cases k with
  | zero => exact iff_of_true (DTree.above_zero t) (.inr (Nat.zero_le _))
  | succ k =>
    rw [← h.unfolds.lt_level_iff hk, or_comm]
    rfl

/-- The refinement: what the operation returns is what the lockstep of the trees of its operands
allows. It returns if the fuel is enough. -/
theorem mtbddWithLockstepTo_yields (hs : Settled D isPrime g) (ha : Diagram D g a tL)
    (hb : Diagram D g b tR) (htarget : target < g.kernel.env.bddvarnum)
    (haction : PerformsBoth D isPrime g.kernel.env.bddvarnum target A action) {fuel : ℕ}
    (hfuel : E ∨ Enough target prefL prefR fuel tL tR (rootParent g.kernel.env.bddvarnum tL)
      (rootParent g.kernel.env.bddvarnum tR)) :
    Yields (Code.mtbddWithLockstepTo D isPrime target action prefL onL prefR onR fuel a b) g
      (GivesBoth D isPrime g (Lockstepped target A prefL onL prefR onR tL tR
        (rootParent g.kernel.env.bddvarnum tL) (rootParent g.kernel.env.bddvarnum tR))) E := by
  have hlevel : target < maxlevel := Nat.lt_of_lt_of_le htarget hs.varnum
  unfold Code.mtbddWithLockstepTo
  apply aboveRoot_yields ha.toRooted
  apply aboveRoot_yields hb.toRooted
  exact lockstep_yields haction hlevel htarget fuel hs ha.toRooted hb.toRooted ha.sorted hb.sorted
    hfuel

end Lockstep

/-! ### Two variables -/

/-- The result was not ended, and nothing was reported. -/
def calm {α : Type} (r : Result (Globals P) (Entry P) Command α) : Bool :=
  (match r with
    | .jump _ => false
    | _ => true) &&
  !r.machine.globals.kernel.bdderrorcond &&
  r.machine.history.all fun e => !e.globals.kernel.bdderrorcond

theorem undisturbed_of_calm {r : Result (Globals P) (Entry P) Command α} (h : calm r = true) :
    Undisturbed r := by
  simp only [calm, Bool.and_eq_true, Bool.not_eq_true', List.all_eq_true] at h
  obtain ⟨⟨hjump, hok⟩, hall⟩ := h
  refine ⟨⟨hok, hall⟩, ?_⟩
  rintro m rfl
  exact nomatch hjump

/-- Between calls of the operators on plain diagrams the library is settled. -/
theorem Reachable.settled (h : Reachable D isPrime s) : Settled D isPrime (Globals.init s) := by
  have hgood := h.good
  obtain ⟨flight, hi, -⟩ := hgood.inv.table
  exact ⟨⟨flight, hi⟩, (hgood.inv.graph.reduced trivial).1, hgood.num⟩

/-- The tree of a variable. -/
def variableTree (level : ℕ) : DTree (ℕ × Leaf UInt32) :=
  .node level (.leaf (0, .const false)) (.leaf (1, .const true))

theorem variable_diagram {s : BddState UInt32} {v : ℕ} (hnum : s.env.bddvarnum = 2) (hv : v < 2)
    (h2 : 2 ≤ n) (hkey : s.key n = ⟨some 0, 1, v⟩) (href : 0 < (s.bddnodes n).refcou) :
    Diagram intDomain (Globals.init s) n (variableTree v) := by
  have hlive := BddState.Reads.live_of_key h2 hkey
  have hmax : v ≠ maxlevel := by
    show v ≠ 0x1FFFFF
    omega
  refine ⟨⟨.inr ⟨_, .inl href, .refl hlive⟩,
    .node h2 hkey hmax (.leaf (.const false)) (.leaf (.const true))⟩, ?_⟩
  rw [show (Globals.init s).kernel.env.bddvarnum = 2 from hnum]
  exact ⟨hv, trivial, trivial, trivial, trivial⟩

theorem twoVariables_diagram : ∀ v < 2,
    Diagram intDomain (Globals.init twoVariables) (2 * v + 2) (variableTree v) := by
  intro v hlevel
  obtain ⟨hkey, href⟩ := twoVariables_nodes v hlevel
  exact variable_diagram twoVariables_varnum hlevel (by omega) hkey href

end MoToBuddy.Bdd
