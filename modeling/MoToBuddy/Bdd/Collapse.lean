import MoToBuddy.Bdd.Lockstep

/-!
# Nodes with equal children

At a skipped level a combinator hands a node with equal children to the action. The combinators
never remove such a node from what they return, so what they return has no node with equal children
if and only if no action hands one back (`combinators_irredundant_iff`).
-/

namespace MoToBuddy.Bdd

open Marking Decision Jumping

open Code (Branch virtualLevel)

variable {P : Type} {D : MtbddDomain P} {isPrime : ℕ → Bool} {s : BddState P}

/-- No node of the diagram has equal children. -/
def BddState.Irredundant (s : BddState P) (n : ℕ) : Prop :=
  ∀ k, Reach s.live s.succ n k → s.level k ≠ maxlevel → s.low k ≠ s.high k

/-- A leaf has no nodes below it. -/
theorem BddState.Reads.leaf_reach {n k : ℕ} {l : Leaf P} (h : s.Reads D n (.leaf l))
    (hk : Reach s.live s.succ n k) : s.level k = maxlevel := by
  cases h with
  | const b =>
    have := (BddState.live_iff.mp hk.live_left).1
    have := BddState.Reads.toNat_lt b
    omega
  | terminal live level _ _ =>
    have hsucc : s.succ n = [] := by
      unfold BddState.succ
      rw [level]
      split <;> rfl
    rcases hk.cases_head with rfl | ⟨m, hm, -⟩
    · exact level
    · rw [hsucc] at hm
      exact absurd hm List.not_mem_nil

/-- The tree of an irredundant diagram is reduced, and the other way round. -/
theorem BddState.Unfolds.reduced_iff {flight : List ℕ} (hi : TableInv D isPrime flight s) {n : ℕ}
    {t : DTree (ℕ × Leaf P)} (h : s.Unfolds D n t) : t.Reduced ↔ s.Irredundant n := by
  induction h with
  | leaf reads => exact iff_of_true trivial fun k hk hlevel => absurd (reads.leaf_reach hk) hlevel
  | @node n low high level tl th inner key decision below above ihl ihh =>
    have hlive := BddState.Reads.live_of_key inner key
    have hsucc : s.succ n = [low, high] := by
      unfold BddState.succ
      rw [key]
      exact if_neg decision
    have hlow : s.low n = low := by
      unfold BddState.low
      rw [show (s.bddnodes n).low = some low from congrArg BddKey.low key]
      rfl
    have hhigh : s.high n = high := congrArg BddKey.high key
    have hlevel : s.level n = level := congrArg BddKey.level key
    -- the children are the same node if their trees are equal
    have hne : tl ≠ th ↔ low ≠ high := by
      refine not_congr ⟨?_, ?_⟩
      · rintro rfl
        exact below.inj hi above
      · rintro rfl
        exact below.unique above
    show tl ≠ th ∧ tl.Reduced ∧ th.Reduced ↔ _
    rw [hne, ihl, ihh]
    constructor
    · rintro ⟨hdiff, hl, hh⟩ k hk
      rcases hk.cases_head with rfl | ⟨m, hm, hmk⟩
      · rw [hlow, hhigh]
        exact fun _ => hdiff
      · rw [hsucc] at hm
        rcases List.mem_pair.mp hm with rfl | rfl
        · exact hl k hmk
        · exact hh k hmk
    · intro hall
      have hself := hall n (.refl hlive) (hlevel.trans_ne decision)
      rw [hlow, hhigh] at hself
      refine ⟨hself, fun k hk => ?_, fun k hk => ?_⟩
      · exact hall k (.child hlive (by simp [hsucc]) hk)
      · exact hall k (.child hlive (by simp [hsucc]) hk)

/-! ## What an action hands back -/

section Trees

variable {L : Type*} {target level M : ℕ} {pref prefL prefR actionOn onL onR : Branch}
  {parent parentL parentR : ℤ} {t low high u v r : DTree L} {args results : List (DTree L)}

/-- An action has made no node with equal children: all that its results have are from the
arguments. -/
def Frugal (args results : List (DTree L)) : Prop :=
  ∀ u ∈ results, ∀ v, u.Has v → v.Redundant → ∃ t ∈ args, t.Has v

/-- A result has an argument with equal children. -/
def HandsBack (args results : List (DTree L)) : Prop :=
  ∃ t ∈ args, t.Redundant ∧ ∃ u ∈ results, u.Has t

/-- Below the root there are no equal children. -/
def Fresh : DTree L → Prop
  | .leaf _ => True
  | .node _ low high => low.Reduced ∧ high.Reduced

theorem fresh_of_reduced (h : t.Reduced) : Fresh t := by
  cases t with
  | leaf l => trivial
  | node level low high => exact h.2

/-- The only equal children that a fresh tree can have are its own. -/
theorem Fresh.eq_of_has (h : Fresh t) (hv : t.Has v) (hr : v.Redundant) : v = t := by
  cases t with
  | leaf l => exact hv
  | node level low high =>
    rcases hv with hv | hv | hv
    · exact hv
    · exact absurd hr (DTree.reduced_iff_has.mp h.1 v hv)
    · exact absurd hr (DTree.reduced_iff_has.mp h.2 v hv)

/-- The results of an action are reduced if it hands back no node with equal children. -/
theorem Frugal.reduced_iff (h : Frugal args results) (hargs : ∀ t ∈ args, Fresh t) :
    (∀ u ∈ results, u.Reduced) ↔ ¬ HandsBack args results := by
  constructor
  · rintro hreduced ⟨t, -, hr, u, hu, hhas⟩
    exact DTree.reduced_iff_has.mp (hreduced u hu) t hhas hr
  · intro hnot u hu
    apply DTree.reduced_iff_has.mpr
    intro v hv hr
    obtain ⟨t, ht, htv⟩ := h u hu v hv hr
    obtain rfl := (hargs t ht).eq_of_has htv hr
    exact hnot ⟨v, ht, hr, u, hu, hv⟩

theorem not_handsBack_of_reduced (h : ∀ t ∈ args, t.Reduced) : ¬ HandsBack args results := by
  rintro ⟨t, ht, hr, -⟩
  exact DTree.reduced_iff_has.mp (h t ht) t t.has_self hr

/-- What a descent works on at the target, for what is left of the operand there. -/
def atTarget (target : ℕ) (t : DTree L) : DTree L :=
  if t.Above (target + 1) then .node target t t else t

/-- A descent works on the tree itself, or twice on a tree below the target. -/
theorem Filled.eq_or (h : Filled target pref parent t level low high) :
    t = .node level low high ∧ level ≤ target ∨ t.Above (target + 1) ∧ low = t ∧ high = t := by
  cases h with
  | real le => exact .inl ⟨rfl, le⟩
  | virtual above => exact .inr ⟨above, rfl, rfl⟩

theorem Filled.atTarget (h : Filled target pref parent t target low high) :
    Bdd.atTarget target t = .node target low high := by
  rcases h.eq_or with ⟨rfl, le⟩ | ⟨above, rfl, rfl⟩
  · exact if_neg (Nat.not_succ_le_self target)
  · exact if_pos above

/-- The parts of a node that a descent works on are reduced. -/
theorem Filled.reduced (h : Filled target pref parent t level low high) (ht : t.Reduced) :
    low.Reduced ∧ high.Reduced := by
  cases h with
  | real _ => exact ht.2
  | virtual _ => exact ⟨ht, ht⟩

/-- Making the node again gives the tree. -/
theorem Filled.join_eq (h : Filled target pref parent t level low high) (ht : t.Reduced) :
    .join level low high = t := by
  cases h with
  | real _ => exact DTree.join_of_reduced ht
  | virtual _ => exact DTree.join_self _ t

/-- The node at the target has different children unless the level is skipped. -/
theorem Filled.node_reduced (h : Filled target pref parent t target low high) (ht : t.Reduced) :
    (DTree.node target low high).Reduced ↔ ¬ t.Above (target + 1) := by
  rcases h.eq_or with ⟨rfl, -⟩ | ⟨above, rfl, rfl⟩
  · exact iff_of_true ht (Nat.not_succ_le_self target)
  · exact iff_of_false (fun h => h.1 rfl) (not_not_intro above)

theorem Filled.node_fresh (h : Filled target pref parent t level low high) (ht : t.Reduced) :
    Fresh (.node level low high) := h.reduced ht

/-! ## Traversals -/

/-- The assignment goes to a side that a descent prefers. -/
def Takes (pref : Branch) (x : ℕ → Bool) : Prop :=
  (pref = .L → ∀ j, x j = false) ∧ (pref = .R → ∀ j, x j = true)

theorem takes_nonempty (pref : Branch) : Takes pref fun _ => decide (pref = .R) :=
  ⟨fun h _ => by simp [h], fun h _ => by simp [h]⟩

/-- Where a level decides between two conditions that do not depend on it. -/
theorem forall_iff_of_level (level : ℕ) {p q r : (ℕ → Bool) → Prop}
    (hp : ∀ x b, p (Function.update x level b) ↔ p x)
    (hq : ∀ x b, q (Function.update x level b) ↔ q x)
    (hr : ∀ x, r x ↔ if x level then q x else p x) : (∀ x, r x) ↔ (∀ x, p x) ∧ ∀ x, q x := by
  constructor
  · intro h
    constructor
    · intro x
      have hx := (hr _).mp (h (Function.update x level false))
      rw [Function.update_self, if_neg Bool.false_ne_true] at hx
      exact (hp x false).mp hx
    · intro x
      have hx := (hr _).mp (h (Function.update x level true))
      rw [Function.update_self, if_pos rfl] at hx
      exact (hq x true).mp hx
  · rintro ⟨hp, hq⟩ x
    rw [hr]
    split
    · exact hq x
    · exact hp x

/-- A condition on what is left of two trees at the target, for the branches at a level. -/
theorem forall_after_iff (M : ℕ) {C : DTree L → DTree L → Prop} {tL tR lowL highL lowR highR : DTree L}
    (hs : ∀ t ∈ [lowL, lowR, highL, highR], t.Sorted M ∧ t.Above (level + 1))
    (hL : ∀ x, tL.after target x = if x level then highL.after target x else lowL.after target x)
    (hR : ∀ x, tR.after target x = if x level then highR.after target x else lowR.after target x) :
    (∀ x, C (tL.after target x) (tR.after target x)) ↔
      (∀ x, C (lowL.after target x) (lowR.after target x)) ∧
        ∀ x, C (highL.after target x) (highR.after target x) := by
  have hskip : ∀ t ∈ [lowL, lowR, highL, highR], ∀ x b,
      t.after target (Function.update x level b) = t.after target x := fun t ht x b =>
    DTree.after_update (hs t ht).1 (hs t ht).2 x b
  simp only [List.forall_mem_cons] at hskip
  obtain ⟨hlL, hlR, hhL, hhR, -⟩ := hskip
  refine forall_iff_of_level level (fun x b => ?_) (fun x b => ?_) fun x => ?_
  · rw [hlL, hlR]
  · rw [hhL, hhR]
  · rw [hL, hR]
    split <;> rfl

/-- The result of a traversal is reduced if the action hands back no node with equal children,
wherever the traversal lets it act on a node. -/
theorem Traversed.reduced_iff {A : DTree L → DTree L → Prop} {passes : DTree L → Prop}
    (h : Traversed target A pref actionOn t parent r) (hA : ∀ t u, A t u → Frugal [t] [u])
    (hpasses : ∀ t u, A t u → (HandsBack [t] [u] ↔ passes t)) (ht : t.Reduced) (hs : t.Sorted M) :
    r.Reduced ↔
      (¬ OneSided actionOn → ∀ x, Takes pref x → ¬ passes (atTarget target (t.after target x))) := by
  have hacts : ∀ {t u}, A t u → Fresh t → (u.Reduced ↔ ¬ passes t) := by
    intro t u htu hfresh
    rw [← hpasses t u htu, ← (hA t u htu).reduced_iff (by simpa using hfresh)]
    simp
  have hgood : ∀ {t u}, A t u → t.Reduced → u.Reduced := by
    intro t u htu ht
    rw [hacts htu (fresh_of_reduced ht), ← hpasses t u htu]
    exact not_handsBack_of_reduced (by simpa using ht)
  induction h with
  | @act t low high r parent filled acted =>
    obtain ⟨hl, hh⟩ := filled.reduced ht
    simp only [filled.after_target, filled.atTarget]
    unfold ActedOn at acted
    split at acted
    · obtain ⟨u, hu, rfl⟩ := acted
      exact iff_of_true (DTree.reduced_join.mpr ⟨hgood hu hl, hh⟩) fun h => absurd (.inl rfl) h
    · obtain ⟨u, hu, rfl⟩ := acted
      exact iff_of_true (DTree.reduced_join.mpr ⟨hl, hgood hu hh⟩) fun h => absurd (.inr rfl) h
    · rename_i hL hR
      have hside : ¬ OneSided actionOn := fun h => h.elim hL hR
      rw [hacts acted (filled.node_fresh ht)]
      exact ⟨fun h _ _ _ => h, fun h => h hside _ (takes_nonempty pref)⟩
  | @low t low high u parent level left filled above _ ih =>
    subst left
    obtain ⟨hl, hh⟩ := filled.reduced ht
    have ih := ih hl (filled.sorted hs).1
    rw [DTree.reduced_join, and_iff_left hh]
    refine ih.trans <| imp_congr_right fun _ => forall₂_congr fun x hx => ?_
    rw [filled.after_lt (Nat.lt_of_le_of_ne filled.le above), hx.1 rfl, if_neg Bool.false_ne_true]
  | @high t low high u parent level right filled above _ ih =>
    subst right
    obtain ⟨hl, hh⟩ := filled.reduced ht
    have ih := ih hh (filled.sorted hs).2
    rw [DTree.reduced_join, and_iff_right hl]
    refine ih.trans <| imp_congr_right fun _ => forall₂_congr fun x hx => ?_
    rw [filled.after_lt (Nat.lt_of_le_of_ne filled.le above), hx.2 rfl, if_pos rfl]
  | @both t low high u v parent level left right filled above _ _ ihl ihh =>
    obtain ⟨hl, hh⟩ := filled.reduced ht
    obtain ⟨hsl, hsh⟩ := filled.sorted hs
    obtain ⟨hal, hah⟩ := filled.above hs
    have htakes : ∀ x, Takes pref x := fun x => ⟨fun h => absurd h left, fun h => absurd h right⟩
    have ihl := ihl hl hsl
    have ihh := ihh hh hsh
    rw [DTree.reduced_join]
    refine ((and_congr ihl ihh).trans imp_and.symm).trans <| imp_congr_right fun _ => ?_
    simp only [htakes, true_imp_iff]
    have hafter := filled.after_lt (Nat.lt_of_le_of_ne filled.le above)
    refine (forall_after_iff M (C := fun c _ => ¬ passes (atTarget target c)) ?_ hafter hafter).symm
    simp [hsl, hsh, hal, hah]

/-- An action that hands back its argument changes nothing, unless it hands back equal children. -/
theorem Traversed.eq_of_reduced {A : DTree L → DTree L → Prop}
    (h : Traversed target A pref actionOn t parent r) (hA : ∀ t u, A t u → u = t) (ht : t.Reduced)
    (hr : r.Reduced) : r = t := by
  induction h with
  | @act t low high r parent filled acted =>
    unfold ActedOn at acted
    split at acted
    · obtain ⟨u, hu, rfl⟩ := acted
      rw [hA _ _ hu, filled.join_eq ht]
    · obtain ⟨u, hu, rfl⟩ := acted
      rw [hA _ _ hu, filled.join_eq ht]
    · obtain rfl := hA _ _ acted
      rw [← DTree.join_of_reduced hr, filled.join_eq ht]
  | low _ filled _ _ ih =>
    obtain ⟨hu, -⟩ := DTree.reduced_join.mp hr
    rw [ih (filled.reduced ht).1 hu, filled.join_eq ht]
  | high _ filled _ _ ih =>
    obtain ⟨-, hu⟩ := DTree.reduced_join.mp hr
    rw [ih (filled.reduced ht).2 hu, filled.join_eq ht]
  | both _ _ filled _ _ _ ihl ihh =>
    obtain ⟨hu, hv⟩ := DTree.reduced_join.mp hr
    rw [ihl (filled.reduced ht).1 hu, ihh (filled.reduced ht).2 hv, filled.join_eq ht]

/-! ## Lockstep traversals -/

/-- A side that arrives takes both children above the target. -/
theorem Filled.take_eq (h : Filled target pref parent t level low high)
    (harrives : Arrives target pref parent t) (hne : level ≠ target) :
    takeLow pref level low high = low ∧ takeHigh pref level low high = high := by
  have hboth : ¬ OneSided pref := fun hone => hne (h.level_eq.symm.trans (harrives hone))
  exact ⟨if_neg fun heq => hboth (.inr heq), if_neg fun heq => hboth (.inl heq)⟩

/-- A node at the target that is not skipped, on a side that is given as a whole. -/
def Unskipped (target : ℕ) (actionOn : Branch) (t : DTree L) : Prop :=
  ¬ OneSided actionOn → ¬ t.Above (target + 1)

theorem Filled.sideOf_reduced (h : Filled target pref parent t target low high) (ht : t.Reduced)
    (hunskipped : Unskipped target actionOn t) : (sideOf target actionOn low high).Reduced := by
  obtain ⟨hl, hh⟩ := h.reduced ht
  cases actionOn with
  | L => exact hl
  | R => exact hh
  | LR | RL | ITSELF => exact (h.node_reduced ht).mpr (hunskipped fun hone => hone.elim nofun nofun)

theorem Filled.withSide_reduced (h : Filled target pref parent t target low high) (ht : t.Reduced)
    (hunskipped : Unskipped target actionOn t) (hu : u.Reduced) :
    (withSide target actionOn low high u).Reduced := by
  obtain ⟨hl, hh⟩ := h.reduced ht
  cases actionOn with
  | L => exact DTree.reduced_join.mpr ⟨hu, hh⟩
  | R => exact DTree.reduced_join.mpr ⟨hl, hu⟩
  | LR | RL | ITSELF => exact (h.node_reduced ht).mpr (hunskipped fun hone => hone.elim nofun nofun)

/-- A node that is kept at a skipped level has equal children. -/
theorem Filled.unskipped_of_reduced (h : Filled target pref parent t target low high)
    (ht : t.Reduced) (hr : (withSide target actionOn low high u).Reduced) :
    Unskipped target actionOn t := by
  intro hside
  rw [← h.node_reduced ht]
  cases actionOn with
  | L => exact absurd (.inl rfl) hside
  | R => exact absurd (.inr rfl) hside
  | LR | RL | ITSELF => exact hr

/-- Both sides are tidy at the target: the action hands back no equal children, and a side that
is kept has none. -/
def Tidy (target : ℕ) (onL onR : Branch) (passes : DTree L → DTree L → Prop) (tL tR : DTree L) :
    Prop :=
  if onL = .ITSELF ∧ onR = .ITSELF then ¬ passes (atTarget target tL) (atTarget target tR)
  else Unskipped target onL tL ∧ Unskipped target onR tR

section Lockstep

variable {tL tR lowL highL lowR highR rL rR : DTree L}
  {A : DTree L → DTree L → DTree L → DTree L → Prop} {passes : DTree L → DTree L → Prop}

theorem ActedOnBoth.reduced_iff (h : ActedOnBoth target A onL onR lowL highL lowR highR rL rR)
    (left : Filled target prefL parentL tL target lowL highL)
    (right : Filled target prefR parentR tR target lowR highR)
    (hA : ∀ tL tR u v, A tL tR u v → Frugal [tL, tR] [u, v])
    (hpasses : ∀ tL tR u v, A tL tR u v → (HandsBack [tL, tR] [u, v] ↔ passes tL tR))
    (htL : tL.Reduced) (htR : tR.Reduced) :
    rL.Reduced ∧ rR.Reduced ↔ Tidy target onL onR passes tL tR := by
  have hacts : ∀ {tL tR u v}, A tL tR u v → Fresh tL → Fresh tR →
      (u.Reduced ∧ v.Reduced ↔ ¬ HandsBack [tL, tR] [u, v]) := by
    intro tL tR u v huv hfL hfR
    rw [← (hA tL tR u v huv).reduced_iff (by simp [hfL, hfR])]
    simp
  unfold ActedOnBoth at h
  unfold Tidy
  split at h
  · rename_i hitself
    rw [if_pos hitself, left.atTarget, right.atTarget, ← hpasses _ _ _ _ h]
    exact hacts h (left.node_fresh htL) (right.node_fresh htR)
  · rename_i hmixed
    obtain ⟨uL, uR, huv, rfl, rfl⟩ := h
    rw [if_neg hmixed]
    constructor
    · rintro ⟨hrL, hrR⟩
      exact ⟨left.unskipped_of_reduced htL hrL, right.unskipped_of_reduced htR hrR⟩
    · rintro ⟨hL, hR⟩
      -- arguments without equal children give such results
      have hsL := left.sideOf_reduced htL hL
      have hsR := right.sideOf_reduced htR hR
      obtain ⟨huL, huR⟩ := (hacts huv (fresh_of_reduced hsL) (fresh_of_reduced hsR)).mpr
        (not_handsBack_of_reduced (by simp [hsL, hsR]))
      exact ⟨left.withSide_reduced htL hL huL, right.withSide_reduced htR hR huR⟩

/-- The results of a lockstep are reduced if both sides are tidy wherever it gets to the target. -/
theorem Lockstepped.reduced_iff
    (h : Lockstepped target A prefL onL prefR onR tL tR parentL parentR rL rR)
    (hA : ∀ tL tR u v, A tL tR u v → Frugal [tL, tR] [u, v])
    (hpasses : ∀ tL tR u v, A tL tR u v → (HandsBack [tL, tR] [u, v] ↔ passes tL tR))
    (htL : tL.Reduced) (htR : tR.Reduced) (hsL : tL.Sorted M) (hsR : tR.Sorted M) :
    rL.Reduced ∧ rR.Reduced ↔
      ∀ x, Tidy target onL onR passes (tL.after target x) (tR.after target x) := by
  induction h with
  | act left right acted =>
    rw [acted.reduced_iff left right hA hpasses htL htR]
    simp only [left.after_target, right.after_target, forall_const]
  | @both tL tR lowL highL lowR highR uL uR vL vR parentL parentR level left right above first
      second ihl ihh =>
    obtain ⟨harL, harR⟩ := (Lockstepped.both left right above first second).arrives
    obtain ⟨hlL, hhL⟩ := left.reduced htL
    obtain ⟨hlR, hhR⟩ := right.reduced htR
    obtain ⟨hslL, hshL⟩ := left.sorted hsL
    obtain ⟨hslR, hshR⟩ := right.sorted hsR
    obtain ⟨halL, hahL⟩ := left.above hsL
    obtain ⟨halR, hahR⟩ := right.above hsR
    have hlt := Nat.lt_of_le_of_ne left.le above
    rw [(left.take_eq harL above).1, (right.take_eq harR above).1] at ihl
    rw [(left.take_eq harL above).2, (right.take_eq harR above).2] at ihh
    have ihl := ihl hlL hlR hslL hslR
    have ihh := ihh hhL hhR hshL hshR
    rw [DTree.reduced_join, DTree.reduced_join, and_and_and_comm]
    refine (and_congr ihl ihh).trans (forall_after_iff M ?_ (left.after_lt hlt) (right.after_lt hlt)).symm
    simp [hslL, hslR, hshL, hshR, halL, halR, hahL, hahR]
  | @left tL tR lowL highL lowR highR uL uR vL vR parentL parentR level levelR left right lt first
      second ihl ihh =>
    have above : level ≠ target := Nat.ne_of_lt (Nat.lt_of_lt_of_le lt right.le)
    have hlt := Nat.lt_of_le_of_ne left.le above
    obtain ⟨harL, -⟩ := (Lockstepped.left left right lt first second).arrives
    obtain ⟨hlL, hhL⟩ := left.reduced htL
    obtain ⟨hslL, hshL⟩ := left.sorted hsL
    obtain ⟨halL, hahL⟩ := left.above hsL
    have haR : tR.Above (level + 1) := right.root_above.mono lt
    rw [(left.take_eq harL above).1] at ihl
    rw [(left.take_eq harL above).2] at ihh
    have ihl := ihl hlL htR hslL hsR
    have ihh := ihh hhL htR hshL hsR
    rw [DTree.reduced_join, DTree.reduced_join, and_and_and_comm]
    refine (and_congr ihl ihh).trans (forall_after_iff M ?_ (left.after_lt hlt) fun _ => ?_).symm
    · simp [hslL, hshL, hsR, halL, hahL, haR]
    · exact (ite_self _).symm
  | @right tL tR lowL highL lowR highR uL uR vL vR parentL parentR level levelL left right lt first
      second ihl ihh =>
    have above : level ≠ target := Nat.ne_of_lt (Nat.lt_of_lt_of_le lt left.le)
    have hlt := Nat.lt_of_le_of_ne right.le above
    obtain ⟨-, harR⟩ := (Lockstepped.right left right lt first second).arrives
    obtain ⟨hlR, hhR⟩ := right.reduced htR
    obtain ⟨hslR, hshR⟩ := right.sorted hsR
    obtain ⟨halR, hahR⟩ := right.above hsR
    have haL : tL.Above (level + 1) := left.root_above.mono lt
    rw [(right.take_eq harR above).1] at ihl
    rw [(right.take_eq harR above).2] at ihh
    have ihl := ihl htL hlR hsL hslR
    have ihh := ihh htL hhR hsL hshR
    rw [DTree.reduced_join, DTree.reduced_join, and_and_and_comm]
    refine (and_congr ihl ihh).trans (forall_after_iff M ?_ (fun _ => ?_) (right.after_lt hlt)).symm
    · simp [hslR, hshR, hsL, halR, hahR, haL]
    · exact (ite_self _).symm

/-- The side that an action gets, in its place. -/
theorem Filled.withSide_sideOf {on : Branch}
    (h : Filled target pref parent t target low high) (ht : t.Reduced)
    (hr : (withSide target on low high (sideOf target on low high)).Reduced) :
    withSide target on low high (sideOf target on low high) = t := by
  cases on with
  | L | R => exact h.join_eq ht
  | LR | RL | ITSELF => exact (DTree.join_of_reduced hr).symm.trans (h.join_eq ht)

/-- An action that hands back its arguments changes nothing, unless it hands back equal children. -/
theorem Lockstepped.eq_of_reduced
    (h : Lockstepped target A prefL onL prefR onR tL tR parentL parentR rL rR)
    (hA : ∀ tL tR u v, A tL tR u v → u = tL ∧ v = tR) (htL : tL.Reduced) (htR : tR.Reduced)
    (hrL : rL.Reduced) (hrR : rR.Reduced) : rL = tL ∧ rR = tR := by
  induction h with
  | act left right acted =>
    unfold ActedOnBoth at acted
    split at acted
    · obtain ⟨rfl, rfl⟩ := hA _ _ _ _ acted
      rw [← DTree.join_of_reduced hrL, ← DTree.join_of_reduced hrR]
      exact ⟨left.join_eq htL, right.join_eq htR⟩
    · obtain ⟨uL, uR, huv, rfl, rfl⟩ := acted
      obtain ⟨rfl, rfl⟩ := hA _ _ _ _ huv
      exact ⟨left.withSide_sideOf htL hrL, right.withSide_sideOf htR hrR⟩
  | both left right above first second ihl ihh =>
    obtain ⟨harL, harR⟩ := (Lockstepped.both left right above first second).arrives
    rw [(left.take_eq harL above).1, (right.take_eq harR above).1] at ihl
    rw [(left.take_eq harL above).2, (right.take_eq harR above).2] at ihh
    obtain ⟨huL, hvL⟩ := DTree.reduced_join.mp hrL
    obtain ⟨huR, hvR⟩ := DTree.reduced_join.mp hrR
    obtain ⟨rfl, rfl⟩ := ihl (left.reduced htL).1 (right.reduced htR).1 huL huR
    obtain ⟨rfl, rfl⟩ := ihh (left.reduced htL).2 (right.reduced htR).2 hvL hvR
    exact ⟨left.join_eq htL, right.join_eq htR⟩
  | left left right lt first second ihl ihh =>
    have above := Nat.ne_of_lt (Nat.lt_of_lt_of_le lt right.le)
    obtain ⟨harL, -⟩ := (Lockstepped.left left right lt first second).arrives
    rw [(left.take_eq harL above).1] at ihl
    rw [(left.take_eq harL above).2] at ihh
    obtain ⟨huL, hvL⟩ := DTree.reduced_join.mp hrL
    obtain ⟨huR, hvR⟩ := DTree.reduced_join.mp hrR
    obtain ⟨rfl, rfl⟩ := ihl (left.reduced htL).1 htR huL huR
    obtain ⟨rfl, rfl⟩ := ihh (left.reduced htL).2 htR hvL hvR
    exact ⟨left.join_eq htL, DTree.join_self _ _⟩
  | right left right lt first second ihl ihh =>
    have above := Nat.ne_of_lt (Nat.lt_of_lt_of_le lt left.le)
    obtain ⟨-, harR⟩ := (Lockstepped.right left right lt first second).arrives
    rw [(right.take_eq harR above).1] at ihl
    rw [(right.take_eq harR above).2] at ihh
    obtain ⟨huL, hvL⟩ := DTree.reduced_join.mp hrL
    obtain ⟨huR, hvR⟩ := DTree.reduced_join.mp hrR
    obtain ⟨rfl, rfl⟩ := ihl htL (right.reduced htR).1 huL huR
    obtain ⟨rfl, rfl⟩ := ihh htL (right.reduced htR).2 hvL hvR
    exact ⟨DTree.join_self _ _, right.join_eq htR⟩

end Lockstep

end Trees

/-! ## The operations -/

variable {target : ℕ}

/-- What the combinators return has no node with equal children, and is the operand itself for an
action that returns its argument, if and only if no action hands back such a node where the target
is skipped, and no side of a lockstep is kept there. -/
theorem combinators_irredundant_iff {m : Process P} (hs : Settled D isPrime m.globals)
    (htarget : target < m.globals.kernel.env.bddvarnum) :
    -- `mtbdd_with_traverse_to`
    (∀ (A : DTree (ℕ × Leaf P) → DTree (ℕ × Leaf P) → Prop) (passes : DTree (ℕ × Leaf P) → Prop)
      (action : ℕ → Code P ℕ) (pref actionOn : Branch) (n fuel : ℕ) (t : DTree (ℕ × Leaf P)),
      Performs D isPrime m.globals.kernel.env.bddvarnum target A action →
      (∀ t u, A t u → Frugal [t] [u]) → (∀ t u, A t u → (HandsBack [t] [u] ↔ passes t)) →
      Diagram D m.globals n t → m.globals.kernel.Irredundant n → target < fuel →
      Undisturbed ((Code.mtbddWithTraverseTo D isPrime target action pref actionOn fuel n).run m) →
      ∃ r m', (Code.mtbddWithTraverseTo D isPrime target action pref actionOn fuel n).run m =
          .value r m' ∧
        (m'.globals.kernel.Irredundant r ∧ ((∀ t u, A t u → u = t) → r = n) ↔
          (¬ OneSided actionOn →
            ∀ x, Takes pref x → ¬ passes (atTarget target (t.after target x))))) ∧
    -- `mtbdd_with_lockstep_to`
    (∀ (A : DTree (ℕ × Leaf P) → DTree (ℕ × Leaf P) → DTree (ℕ × Leaf P) → DTree (ℕ × Leaf P) →
        Prop) (passes : DTree (ℕ × Leaf P) → DTree (ℕ × Leaf P) → Prop)
      (action : ℕ → ℕ → Code P (ℕ × ℕ)) (prefL onL prefR onR : Branch) (a b fuel : ℕ)
      (tL tR : DTree (ℕ × Leaf P)),
      PerformsBoth D isPrime m.globals.kernel.env.bddvarnum target A action →
      (∀ tL tR u v, A tL tR u v → Frugal [tL, tR] [u, v]) →
      (∀ tL tR u v, A tL tR u v → (HandsBack [tL, tR] [u, v] ↔ passes tL tR)) →
      Diagram D m.globals a tL → Diagram D m.globals b tR → m.globals.kernel.Irredundant a →
      m.globals.kernel.Irredundant b → 2 * target < fuel →
      Undisturbed ((Code.mtbddWithLockstepTo D isPrime target action prefL onL prefR onR fuel
        a b).run m) →
      ((OneSided prefL → tL.Above target) ∧ (OneSided prefR → tR.Above target) →
        ∃ r m', (Code.mtbddWithLockstepTo D isPrime target action prefL onL prefR onR fuel
          a b).run m = .value r m') ∧
      ∀ r m', (Code.mtbddWithLockstepTo D isPrime target action prefL onL prefR onR fuel
          a b).run m = .value r m' →
        (m'.globals.kernel.Irredundant r.1 ∧ m'.globals.kernel.Irredundant r.2 ∧
            ((∀ tL tR u v, A tL tR u v → u = tL ∧ v = tR) → r = (a, b)) ↔
          ∀ x, Tidy target onL onR passes (tL.after target x) (tR.after target x))) := by
  obtain ⟨flight, hi⟩ := hs.table
  constructor
  · intro A passes action pref actionOn n fuel t haction hA hpasses hn hreduced hfuel hrun
    obtain ⟨r, m', hvalue, hw, u, hu, hr⟩ := (mtbddWithTraverseTo_yields hs hn htarget haction
      hfuel).run_value rfl hrun.ok hrun.stays
    obtain ⟨flight', hi'⟩ := hw.settled.table
    have ht := (hn.unfolds.reduced_iff hi).mpr hreduced
    refine ⟨r, m', hvalue, ?_⟩
    rw [← hu.reduced_iff hA hpasses ht hn.sorted, ← hr.reduced_iff hi']
    refine and_iff_left_of_imp fun hur hid => ?_
    obtain rfl := hu.eq_of_reduced hid ht hur
    exact hr.inj hi' (hn.toRooted.evo hw.evo).unfolds
  · intro A passes action prefL onL prefR onR a b fuel tL tR haction hA hpasses ha hb hra hrb hfuel
      hrun
    have htL := (ha.unfolds.reduced_iff hi).mpr hra
    have htR := (hb.unfolds.reduced_iff hi).mpr hrb
    constructor
    · rw [← arrives_root htarget, ← arrives_root htarget]
      rintro ⟨harL, harR⟩
      obtain ⟨r, m', hvalue, -⟩ := (mtbddWithLockstepTo_yields hs ha hb htarget haction
        (.inr ⟨harL, harR, by omega⟩)).run_value rfl hrun.ok hrun.stays
      exact ⟨r, m', hvalue⟩
    · intro r m' hvalue
      have hgives := mtbddWithLockstepTo_yields hs ha hb htarget haction (.inl trivial) m rfl hrun.ok
      rw [hvalue] at hgives
      obtain ⟨hw, u, v, huv, hu, hv⟩ := hgives
      obtain ⟨flight', hi'⟩ := hw.settled.table
      rw [← huv.reduced_iff hA hpasses htL htR ha.sorted hb.sorted, ← hu.reduced_iff hi',
        ← hv.reduced_iff hi', ← and_assoc]
      refine and_iff_left_of_imp fun hreduced hid => ?_
      obtain ⟨rfl, rfl⟩ := huv.eq_of_reduced hid htL htR hreduced.1 hreduced.2
      exact Prod.ext (hu.inj hi' (ha.toRooted.evo hw.evo).unfolds)
        (hv.inj hi' (hb.toRooted.evo hw.evo).unfolds)

/-- The identity below the first variable makes nodes with equal children. -/
example : (match
      (Code.mtbddWithTraverseTo intDomain trialDivision 1 (fun n => pure n) .LR .ITSELF 2 2).run
        (Globals.init twoVariables).start with
    | .value r _ => r
    | _ => 0) = 8 := by
  decide +kernel

/-! ### Actions that return their arguments -/

theorem same_performs (D : MtbddDomain P) (isPrime : ℕ → Bool) (M target : ℕ) :
    Performs D isPrime M target (fun t u => u = t) fun n => pure n :=
  fun _ _ t hs hn _ _ => pure_yields ⟨.refl hs, t, rfl, hn.unfolds⟩

theorem samePair_performs (D : MtbddDomain P) (isPrime : ℕ → Bool) (M target : ℕ) :
    PerformsBoth D isPrime M target (fun tL tR u v => u = tL ∧ v = tR) fun a b => pure (a, b) :=
  fun _ _ _ ta tb hs ha hb _ _ _ _ =>
    pure_yields ⟨.refl hs, ta, tb, ⟨rfl, rfl⟩, ha.unfolds, hb.unfolds⟩

section Same

variable {L : Type*} {t tL tR u v : DTree L}

theorem frugal_same (args : List (DTree L)) : Frugal args args := fun u hu _ hv _ => ⟨u, hu, hv⟩

theorem handsBack_same (args : List (DTree L)) : HandsBack args args ↔ ∃ t ∈ args, t.Redundant := by
  constructor
  · rintro ⟨t, ht, hr, -⟩
    exact ⟨t, ht, hr⟩
  · rintro ⟨t, ht, hr⟩
    exact ⟨t, ht, hr, t, ht, t.has_self⟩

theorem same_frugal (h : u = t) : Frugal [t] [u] := h ▸ frugal_same _

theorem same_handsBack (h : u = t) : HandsBack [t] [u] ↔ t.Redundant := by
  rw [h, handsBack_same]
  simp

theorem samePair_frugal (h : u = tL ∧ v = tR) : Frugal [tL, tR] [u, v] := by
  rw [h.1, h.2]
  exact frugal_same _

theorem samePair_handsBack (h : u = tL ∧ v = tR) :
    HandsBack [tL, tR] [u, v] ↔ tL.Redundant ∨ tR.Redundant := by
  rw [h.1, h.2, handsBack_same]
  simp

end Same

theorem variableTree_reduced (level : ℕ) : (variableTree level).Reduced := ⟨by decide, trivial, trivial⟩

/-- The first variable, with an action at its level: nothing changes. -/
theorem twoVariables_irredundant :
    (∃ m', (Code.mtbddWithTraverseTo intDomain trialDivision 0 (fun n => pure n) .LR .ITSELF 1
        2).run (Globals.init twoVariables).start = .value 2 m' ∧ m'.globals.kernel.Irredundant 2) ∧
    ∃ m', (Code.mtbddWithLockstepTo intDomain trialDivision 0 (fun a b => pure (a, b)) .L .ITSELF
        .LR .ITSELF 1 2 2).run (Globals.init twoVariables).start = .value (2, 2) m' ∧
      m'.globals.kernel.Irredundant 2 := by
  have h0 := twoVariables_diagram 0 (by decide)
  have htarget : 0 < (Globals.init twoVariables).start.globals.kernel.env.bddvarnum :=
    twoVariables_varnum ▸ (by decide : 0 < 2)
  obtain ⟨flight, hi⟩ := twoVariables_reachable.settled.table
  have hirr := (h0.unfolds.reduced_iff hi).mp (variableTree_reduced 0)
  obtain ⟨htraverse, hlockstep⟩ := combinators_irredundant_iff (D := intDomain)
    (m := (Globals.init twoVariables).start) twoVariables_reachable.settled htarget
  obtain ⟨r, m', hvalue, hiff⟩ := htraverse _ DTree.Redundant _ .LR .ITSELF 2 1 (variableTree 0)
    (same_performs _ _ _ 0) (fun _ _ => same_frugal) (fun _ _ => same_handsBack) h0 hirr (by decide)
    (undisturbed_of_calm (by decide +kernel))
  obtain ⟨hreturns, hboth⟩ := hlockstep _ (fun tL tR => tL.Redundant ∨ tR.Redundant) _ .L .ITSELF
    .LR .ITSELF 2 2 1 (variableTree 0) (variableTree 0) (samePair_performs _ _ _ 0)
    (fun _ _ _ _ => samePair_frugal) (fun _ _ _ _ => samePair_handsBack) h0 h0 hirr hirr (by decide)
    (undisturbed_of_calm (by decide +kernel))
  have hnot : ∀ x, ¬ (atTarget 0 ((variableTree 0).after 0 x)).Redundant := by
    intro x
    simp [variableTree, DTree.after_node, atTarget, DTree.Above, DTree.Redundant]
  constructor
  · obtain ⟨hr, hsame⟩ := hiff.mpr fun _ x _ => hnot x
    obtain rfl := hsame fun _ _ h => h
    exact ⟨m', hvalue, hr⟩
  · obtain ⟨r', m'', hvalue'⟩ := hreturns ⟨fun _ => Nat.le_refl 0, fun _ => Nat.le_refl 0⟩
    obtain ⟨hr, -, hsame⟩ := (hboth r' m'' hvalue').mpr fun x => by
      simp only [Tidy, and_self, if_true]
      exact fun h => h.elim (hnot x) (hnot x)
    obtain rfl := hsame fun _ _ _ _ h => h
    exact ⟨m'', hvalue', hr⟩

/-- The target is skipped below the first variable: the nodes with equal children for its constants
stay in the result. -/
theorem twoVariables_redundant : ∃ r m',
    (Code.mtbddWithTraverseTo intDomain trialDivision 1 (fun n => pure n) .LR .ITSELF 2 2).run
      (Globals.init twoVariables).start = .value r m' ∧ ¬ m'.globals.kernel.Irredundant r ∧
      r ≠ 2 := by
  have h0 := twoVariables_diagram 0 (by decide)
  have htarget : 1 < (Globals.init twoVariables).start.globals.kernel.env.bddvarnum :=
    twoVariables_varnum ▸ (by decide : 1 < 2)
  have hrun : Undisturbed ((Code.mtbddWithTraverseTo intDomain trialDivision 1 (fun n => pure n)
      .LR .ITSELF 2 2).run (Globals.init twoVariables).start) :=
    undisturbed_of_calm (by decide +kernel)
  obtain ⟨r, m', hvalue, hw, u, hu, hr⟩ := (mtbddWithTraverseTo_yields
    twoVariables_reachable.settled h0 htarget (same_performs _ _ _ 1) (by decide)).run_value rfl
    hrun.ok hrun.stays
  obtain ⟨flight, hi⟩ := hw.settled.table
  have hred : ¬ u.Reduced := by
    rw [hu.reduced_iff (fun _ _ => same_frugal) (fun _ _ => same_handsBack) (variableTree_reduced 0)
      h0.sorted]
    intro h
    have h := h (fun h => h.elim nofun nofun) (fun _ => false) ⟨nofun, nofun⟩
    simp [variableTree, DTree.after_node, atTarget, DTree.after, DTree.Redundant] at h
  refine ⟨r, m', hvalue, fun h => hred ((hr.reduced_iff hi).mpr h), ?_⟩
  rintro rfl
  obtain rfl := hr.unique (h0.toRooted.evo hw.evo).unfolds
  exact hred (variableTree_reduced 0)

end MoToBuddy.Bdd
