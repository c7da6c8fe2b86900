import Mathlib.Algebra.Field.Basic
import Mathlib.Tactic.Common
import Mathlib.Tactic.FieldSimp

/-!
# Weighted decision trees

A reduced or unreduced decision diagram, read from one of its nodes, is a binary tree whose
edges carry a level's decision and a weight. Sharing is forgotten: two nodes with the same
tree denote the same function.

* `WTree.eval`: the product of the weights along the path that an assignment selects.
* `WTree.Ordered`: levels increase along every path, up to the level of the leaf.
* `WEdge.cof`: an edge on one side of a decision, with its weight pushed down.
* `Makes`: what a constructor does that divides both weights by a common factor, collapses
  zero edges and skips redundant nodes.
* `RedEdge.ext`: edges built by such a constructor are determined by their function, if the
  factor scales with the weights.
-/

namespace Weighted

/-- A decision tree with a weight on each edge. -/
inductive WTree (W : Type*)
  | leaf
  | node (level : ℕ) (wLow : W) (low : WTree W) (wHigh : W) (high : WTree W)
  deriving DecidableEq

/-- An edge: a weight and the tree below. -/
abbrev WEdge (W : Type*) := W × WTree W

namespace WTree

variable {W : Type*}

/-- The number of decisions on a longest path. -/
def depth : WTree W → ℕ
  | leaf => 0
  | node _ _ low _ high => max low.depth high.depth + 1

/-- The level of the root; a leaf has level `M`. -/
def topLevel (M : ℕ) : WTree W → ℕ
  | leaf => M
  | node level _ _ _ _ => level

/-- Children are at deeper levels. -/
def Ordered (M : ℕ) : WTree W → Prop
  | leaf => True
  | node level _ low _ high =>
    level < low.topLevel M ∧ level < high.topLevel M ∧ low.Ordered M ∧ high.Ordered M

variable {K : Type*} [Field K]

/-- The function below a node. -/
def eval : WTree K → (ℕ → Bool) → K
  | leaf, _ => 1
  | node level wLow low wHigh high, x =>
    if x level then wHigh * high.eval x else wLow * low.eval x

variable {M : ℕ}

theorem eval_node (level : ℕ) (wLow : K) (low : WTree K) (wHigh : K) (high : WTree K)
    (x : ℕ → Bool) : (node level wLow low wHigh high).eval x =
      if x level then wHigh * high.eval x else wLow * low.eval x := rfl

theorem topLevel_le {τ : WTree W} (h : τ.Ordered M) : τ.topLevel M ≤ M := by
  induction τ with
  | leaf => exact Nat.le_refl M
  | node level wLow low wHigh high ihl ihh =>
    have hl := ihl h.2.2.1
    have hlt : level < low.topLevel M := h.1
    show level ≤ M
    omega

/-- A function only depends on the levels from its root on. -/
theorem eval_update {τ : WTree K} (h : τ.Ordered M) {level : ℕ} (hlt : level < τ.topLevel M)
    (x : ℕ → Bool) (b : Bool) : τ.eval (Function.update x level b) = τ.eval x := by
  induction τ with
  | leaf => rfl
  | node level' wLow low wHigh high ihl ihh =>
    obtain ⟨hlow, hhigh, hol, hoh⟩ := h
    have hlt' : level < level' := hlt
    rw [eval_node, eval_node, Function.update_of_ne (by omega), ihl hol (by omega),
      ihh hoh (by omega)]

end WTree

variable {K : Type*} [Field K] {M : ℕ} {factor : K → K → K}

/-- The function of an edge. -/
def WEdge.val (e : WEdge K) (x : ℕ → Bool) : K := e.1 * e.2.eval x

theorem WEdge.val_update {e : WEdge K} (h : e.2.Ordered M) {level : ℕ}
    (hlt : level < e.2.topLevel M) (x : ℕ → Bool) (b : Bool) :
    e.val (Function.update x level b) = e.val x := by
  unfold WEdge.val
  rw [WTree.eval_update h hlt]

/-! ## Cofactors -/

/-- The edge on one side of a decision; an edge that skips the level stays as it is. -/
def WEdge.cof (level : ℕ) (side : Bool) (e : WEdge K) : WEdge K :=
  match e.2 with
  | .leaf => e
  | .node level' wLow low wHigh high =>
    if level' = level then (e.1 * if side then wHigh else wLow, if side then high else low)
    else e

theorem WEdge.cof_node (c : K) (level : ℕ) (wLow wHigh : K) (low high : WTree K) (side : Bool) :
    WEdge.cof level side (c, .node level wLow low wHigh high) =
      (c * if side then wHigh else wLow, if side then high else low) := if_pos rfl

/-- An edge whose node is not at the level stays as it is. -/
theorem WEdge.cof_skip {level M : ℕ} {e : WEdge K} (h : level ≠ e.2.topLevel M) (side : Bool) :
    e.cof level side = e := by
  obtain ⟨c, τ⟩ := e
  cases τ with
  | leaf => rfl
  | node level' wLow low wHigh high => exact if_neg (Ne.symm h)

/-- The function of an edge is that of the side an assignment takes. -/
theorem WEdge.val_cof (level : ℕ) (e : WEdge K) (x : ℕ → Bool) :
    (e.cof level (x level)).val x = e.val x := by
  by_cases hl : level = e.2.topLevel 0
  · obtain ⟨c, τ⟩ := e
    cases τ with
    | leaf => rfl
    | node level' wLow low wHigh high =>
      rw [show level = level' from hl, WEdge.cof_node]
      unfold WEdge.val
      rw [WTree.eval_node]
      cases x level' <;> simp [mul_assoc]
  · rw [WEdge.cof_skip hl]

/-- What is left below a level is ordered below it. -/
theorem WEdge.cof_ordered {e : WEdge K} (h : e.2.Ordered M) {level : ℕ} (hM : level < M)
    (hlevel : level ≤ e.2.topLevel M) (side : Bool) :
    (e.cof level side).2.Ordered M ∧ level < (e.cof level side).2.topLevel M := by
  by_cases hl : level = e.2.topLevel M
  · obtain ⟨c, τ⟩ := e
    cases τ with
    | leaf => exact ⟨trivial, hM⟩
    | node level' wLow low wHigh high =>
      obtain ⟨hlow, hhigh, hol, hoh⟩ := h
      rw [show level = level' from hl, WEdge.cof_node]
      cases side
      · exact ⟨hol, hlow⟩
      · exact ⟨hoh, hhigh⟩
  · rw [WEdge.cof_skip hl]
    exact ⟨h, lt_of_le_of_ne hlevel hl⟩

/-! ## Construction -/

/-- A common factor of two weights: zero for two zeros only. -/
structure CommonFactor (factor : K → K → K) : Prop where
  zero : factor 0 0 = 0
  ne_zero : ∀ x y, factor x y = 0 → x = 0 ∧ y = 0

/-- The factor scales with the weights. -/
def Scales (factor : K → K → K) : Prop :=
  ∀ c x y, c ≠ 0 → factor (c * x) (c * y) = c * factor x y

/-- A constructor for level `level` with the edges `a` and `b`. That redundant nodes are
skipped is promised under `canon` only. -/
inductive Makes (factor : K → K → K) (canon : Prop) (level : ℕ) (a b : WEdge K) :
    WEdge K → Prop
  | zero (low : a.1 = 0) (high : b.1 = 0) : Makes factor canon level a b (0, .leaf)
  | skip (ne : a.1 ≠ 0 ∨ b.1 ≠ 0) (same : a = b) : Makes factor canon level a b a
  | node (ne : a.1 ≠ 0 ∨ b.1 ≠ 0) (differ : canon → a ≠ b) :
    Makes factor canon level a b (factor a.1 b.1,
      .node level (a.1 / factor a.1 b.1) a.2 (b.1 / factor a.1 b.1) b.2)

variable {canon : Prop} {level : ℕ} {a b c : WEdge K}

theorem CommonFactor.factor_ne (hf : CommonFactor factor) {x y : K} (h : x ≠ 0 ∨ y ≠ 0) :
    factor x y ≠ 0 := by
  intro h0
  obtain ⟨hx, hy⟩ := hf.ne_zero x y h0
  rcases h with h | h
  · exact h hx
  · exact h hy

/-- The constructor denotes the decision between its edges. -/
theorem Makes.val_eq (hf : CommonFactor factor) (h : Makes factor canon level a b c)
    (x : ℕ → Bool) : c.val x = if x level then b.val x else a.val x := by
  cases h with
  | zero low high =>
    unfold WEdge.val
    rw [low, high]
    simp
  | skip ne same =>
    rw [same]
    simp
  | node ne differ =>
    have hne := hf.factor_ne ne
    unfold WEdge.val
    rw [WTree.eval_node]
    split
    · rw [← mul_assoc, mul_div_cancel₀ _ hne]
    · rw [← mul_assoc, mul_div_cancel₀ _ hne]

theorem Makes.ordered (h : Makes factor canon level a b c) (ha : a.2.Ordered M)
    (hb : b.2.Ordered M) (hla : level < a.2.topLevel M) (hlb : level < b.2.topLevel M) :
    c.2.Ordered M ∧ level ≤ c.2.topLevel M := by
  cases h with
  | zero low high =>
    have := WTree.topLevel_le ha
    exact ⟨trivial, by show level ≤ M; omega⟩
  | skip ne same => exact ⟨ha, by omega⟩
  | node ne differ => exact ⟨⟨hla, hlb, ha, hb⟩, Nat.le_refl level⟩

/-! ## Canonicity -/

/-- A tree as the constructor builds it: weights are divided by their factor, zero edges lead
to the leaf and no node is redundant. -/
def WTree.Reduced (factor : K → K → K) : WTree K → Prop
  | .leaf => True
  | .node _ wLow low wHigh high => factor wLow wHigh = 1 ∧ (wLow, low) ≠ (wHigh, high) ∧
    (wLow = 0 → low = .leaf) ∧ (wHigh = 0 → high = .leaf) ∧
    low.Reduced factor ∧ high.Reduced factor

/-- An edge as the constructor builds it. -/
structure RedEdge (M : ℕ) (factor : K → K → K) (e : WEdge K) : Prop where
  ordered : e.2.Ordered M
  reduced : e.2.Reduced factor
  zero : e.1 = 0 → e.2 = .leaf

theorem RedEdge.const (c : K) : RedEdge M factor (c, .leaf) := ⟨trivial, trivial, fun _ => rfl⟩

/-- Dividing by the factor leaves the factor one. -/
theorem Scales.divided (hs : Scales factor) {x y : K} (hne : factor x y ≠ 0) :
    factor (x / factor x y) (y / factor x y) = 1 := by
  have h := hs (factor x y)⁻¹ x y (inv_ne_zero hne)
  rw [inv_mul_cancel₀ hne] at h
  rwa [div_eq_inv_mul, div_eq_inv_mul]

/-- Edges that differ still do after a division. -/
theorem differ_div {k : K} (hne : k ≠ 0) (h : a ≠ b) : (a.1 / k, a.2) ≠ (b.1 / k, b.2) := by
  intro heq
  obtain ⟨h1, h2⟩ := Prod.mk.inj heq
  exact h (Prod.ext ((div_left_inj' hne).mp h1) h2)

theorem Makes.redEdge (hf : CommonFactor factor) (hs : Scales factor) (hcanon : canon)
    (h : Makes factor canon level a b c) (ha : RedEdge M factor a) (hb : RedEdge M factor b)
    (hla : level < a.2.topLevel M) (hlb : level < b.2.topLevel M) : RedEdge M factor c := by
  have hord := (h.ordered ha.ordered hb.ordered hla hlb).1
  cases h with
  | zero low high => exact .const 0
  | skip ne same => exact ha
  | node ne differ =>
    have hne := hf.factor_ne ne
    refine ⟨hord, ⟨hs.divided hne, differ_div hne (differ hcanon), fun h => ?_, fun h => ?_,
      ha.reduced, hb.reduced⟩, fun h => ?_⟩
    · exact ha.zero ((div_eq_zero_iff.mp h).resolve_right hne)
    · exact hb.zero ((div_eq_zero_iff.mp h).resolve_right hne)
    · exact absurd h hne

/-- The lower edge of a reduced node, scaled. -/
theorem WTree.Reduced.low {wLow wHigh k : K} {low high : WTree K}
    (hr : (WTree.node level wLow low wHigh high).Reduced factor)
    (ho : (WTree.node level wLow low wHigh high).Ordered M) (hk : k ≠ 0) :
    RedEdge M factor (k * wLow, low) :=
  ⟨ho.2.2.1, hr.2.2.2.2.1, fun h => hr.2.2.1 ((mul_eq_zero.mp h).resolve_left hk)⟩

/-- The upper edge of a reduced node, scaled. -/
theorem WTree.Reduced.high {wLow wHigh k : K} {low high : WTree K}
    (hr : (WTree.node level wLow low wHigh high).Reduced factor)
    (ho : (WTree.node level wLow low wHigh high).Ordered M) (hk : k ≠ 0) :
    RedEdge M factor (k * wHigh, high) :=
  ⟨ho.2.2.2, hr.2.2.2.2.2, fun h => hr.2.2.2.1 ((mul_eq_zero.mp h).resolve_left hk)⟩

/-- A reduced tree is not zero everywhere. -/
theorem WTree.Reduced.exists_ne_zero (hf : CommonFactor factor) {τ : WTree K}
    (hr : τ.Reduced factor) (ho : τ.Ordered M) : ∃ x, τ.eval x ≠ 0 := by
  induction τ with
  | leaf => exact ⟨fun _ => false, one_ne_zero⟩
  | node level wLow low wHigh high ihl ihh =>
    obtain ⟨hfac, -, -, -, hrl, hrh⟩ := hr
    obtain ⟨hll, hlh, hol, hoh⟩ := ho
    -- one of the weights is not zero, for their factor is one
    by_cases hw : wLow = 0
    · have hh : wHigh ≠ 0 := by
        rintro rfl
        rw [hw, hf.zero] at hfac
        exact zero_ne_one hfac
      obtain ⟨x, hx⟩ := ihh hrh hoh
      refine ⟨Function.update x level true, ?_⟩
      rw [WTree.eval_node, Function.update_self, if_pos rfl, WTree.eval_update hoh hlh]
      exact mul_ne_zero hh hx
    · obtain ⟨x, hx⟩ := ihl hrl hol
      refine ⟨Function.update x level false, ?_⟩
      rw [WTree.eval_node, Function.update_self, if_neg (by decide),
        WTree.eval_update hol hll]
      exact mul_ne_zero hw hx

theorem RedEdge.eq_zero (hf : CommonFactor factor) {e : WEdge K} (he : RedEdge M factor e)
    (h : ∀ x, e.val x = 0) : e.1 = 0 := by
  obtain ⟨x, hx⟩ := he.reduced.exists_ne_zero hf he.ordered
  exact (mul_eq_zero.mp (h x)).resolve_right hx

/-! ## Edges with the same function -/

/-- The cofactors of an edge to a node. -/
theorem WEdge.val_low {k wLow wHigh : K} {low high : WTree K}
    (ho : (WTree.node level wLow low wHigh high).Ordered M) (x : ℕ → Bool) :
    WEdge.val (k, WTree.node level wLow low wHigh high) (Function.update x level false) =
      WEdge.val (k * wLow, low) x := by
  unfold WEdge.val
  rw [WTree.eval_node, Function.update_self, if_neg (by decide),
    WTree.eval_update ho.2.2.1 ho.1, mul_assoc]

theorem WEdge.val_high {k wLow wHigh : K} {low high : WTree K}
    (ho : (WTree.node level wLow low wHigh high).Ordered M) (x : ℕ → Bool) :
    WEdge.val (k, WTree.node level wLow low wHigh high) (Function.update x level true) =
      WEdge.val (k * wHigh, high) x := by
  unfold WEdge.val
  rw [WTree.eval_node, Function.update_self, if_pos rfl, WTree.eval_update ho.2.2.2 ho.2.1,
    mul_assoc]

/-- A function that does not depend on a level is not that of a reduced node there. -/
theorem RedEdge.not_node {k wLow wHigh : K} {low high : WTree K}
    (he : RedEdge M factor (k, .node level wLow low wHigh high)) {e : WEdge K}
    (hval : ∀ x, WEdge.val (k, .node level wLow low wHigh high) x = e.val x)
    (hindep : ∀ x b, e.val (Function.update x level b) = e.val x)
    (ihl : RedEdge M factor (k * wLow, low) → (∀ x, WEdge.val (k * wLow, low) x = e.val x) →
      (k * wLow, low) = e)
    (ihh : RedEdge M factor (k * wHigh, high) → (∀ x, WEdge.val (k * wHigh, high) x = e.val x) →
      (k * wHigh, high) = e) : False := by
  have hk : k ≠ 0 := by
    intro h0
    exact absurd (he.zero h0) (by simp)
  have hlow := ihl (he.reduced.low he.ordered hk) fun x => by
    rw [← WEdge.val_low he.ordered, hval, hindep]
  have hhigh := ihh (he.reduced.high he.ordered hk) fun x => by
    rw [← WEdge.val_high he.ordered, hval, hindep]
  -- both cofactors are the same edge, so the node was redundant
  apply he.reduced.2.1
  obtain ⟨h1, h2⟩ := Prod.mk.inj (hlow.trans hhigh.symm)
  rw [h2, mul_left_cancel₀ hk h1]

/-- Edges that the constructor builds are equal if they denote the same function. -/
theorem RedEdge.ext (hf : CommonFactor factor) (hs : Scales factor) {e e' : WEdge K}
    (he : RedEdge M factor e) (he' : RedEdge M factor e') (hval : ∀ x, e.val x = e'.val x) :
    e = e' := by
  obtain ⟨k, τ⟩ := e
  obtain ⟨k', τ'⟩ := e'
  -- induction on both trees, a step being a cofactor of one of them or of both
  induction hn : τ.depth + τ'.depth using Nat.strong_induction_on generalizing k τ k' τ' with
  | _ n ih =>
  subst hn
  by_cases hk : k = 0
  · subst hk
    have hk' := he'.eq_zero hf fun x => by
      rw [← hval x]
      exact zero_mul _
    have h1 : τ = .leaf := he.zero rfl
    have h2 : τ' = .leaf := he'.zero hk'
    rw [h1, h2, show k' = 0 from hk']
  have hk' : k' ≠ 0 := by
    intro h0
    apply hk
    apply he.eq_zero hf
    intro x
    rw [hval x, h0]
    exact zero_mul _
  cases τ with
  | leaf =>
    cases τ' with
    | leaf =>
      have h := hval fun _ => false
      unfold WEdge.val at h
      rw [show k = k' from by simpa [WTree.eval] using h]
    | node level' wLow' low' wHigh' high' =>
      exfalso
      apply he'.not_node (fun x => (hval x).symm) (fun _ _ => rfl)
      · exact fun hr hv => (ih _ (by simp only [WTree.depth]; omega) k .leaf he _ _ hr
          (fun x => (hv x).symm) rfl).symm
      · exact fun hr hv => (ih _ (by simp only [WTree.depth]; omega) k .leaf he _ _ hr
          (fun x => (hv x).symm) rfl).symm
  | node level wLow low wHigh high =>
    cases τ' with
    | leaf =>
      exfalso
      apply he.not_node hval (fun _ _ => rfl)
      · exact fun hr hv => ih _ (by simp only [WTree.depth]; omega) _ _ hr k' .leaf he' hv rfl
      · exact fun hr hv => ih _ (by simp only [WTree.depth]; omega) _ _ hr k' .leaf he' hv rfl
    | node level' wLow' low' wHigh' high' =>
      rcases lt_trichotomy level level' with hlt | rfl | hlt
      · exfalso
        apply he.not_node hval (fun x b => WEdge.val_update he'.ordered hlt x b)
        · exact fun hr hv => ih _ (by simp only [WTree.depth]; omega) _ _ hr k' _ he' hv rfl
        · exact fun hr hv => ih _ (by simp only [WTree.depth]; omega) _ _ hr k' _ he' hv rfl
      · -- equal cofactors, whose factors are `k` and `k'`
        have hlow := ih _ (by simp only [WTree.depth]; omega) _ _
          (he.reduced.low he.ordered hk) _ _ (he'.reduced.low he'.ordered hk') (fun x => by
            rw [← WEdge.val_low he.ordered, ← WEdge.val_low he'.ordered, hval]) rfl
        have hhigh := ih _ (by simp only [WTree.depth]; omega) _ _
          (he.reduced.high he.ordered hk) _ _ (he'.reduced.high he'.ordered hk') (fun x => by
            rw [← WEdge.val_high he.ordered, ← WEdge.val_high he'.ordered, hval]) rfl
        obtain ⟨hl1, rfl⟩ := Prod.mk.inj hlow
        obtain ⟨hh1, rfl⟩ := Prod.mk.inj hhigh
        have hfac : k = k' := by
          have h1 := hs k wLow wHigh hk
          have h2 := hs k' wLow' wHigh' hk'
          rw [he.reduced.1, mul_one] at h1
          rw [he'.reduced.1, mul_one] at h2
          rw [← h1, ← h2, hl1, hh1]
        subst hfac
        rw [mul_left_cancel₀ hk hl1, mul_left_cancel₀ hk hh1]
      · exfalso
        apply he'.not_node (fun x => (hval x).symm)
          (fun x b => WEdge.val_update he.ordered hlt x b)
        · exact fun hr hv => (ih _ (by simp only [WTree.depth]; omega) k _ he _ _ hr
            (fun x => (hv x).symm) rfl).symm
        · exact fun hr hv => (ih _ (by simp only [WTree.depth]; omega) k _ he _ _ hr
            (fun x => (hv x).symm) rfl).symm

/-! ## Normal forms -/

/-- The function below the node is zero. -/
def WTree.Zero (τ : WTree K) : Prop := ∀ x, τ.eval x = 0

/-- The function below the node is a constant. -/
def WTree.Flat (τ : WTree K) : Prop := ∀ x y, τ.eval x = τ.eval y

/-- A node whose function is zero has no node on its high side. -/
def WTree.Guarded : WTree K → Prop
  | .leaf => True
  | .node level wLow low wHigh high => ((node level wLow low wHigh high).Zero → high = .leaf) ∧
    low.Guarded ∧ high.Guarded

/-- Edges of weight zero lead to constants, except below nodes whose function is zero. -/
def WTree.Settled : WTree K → Prop
  | .leaf => True
  | .node level wLow low wHigh high => (node level wLow low wHigh high).Zero ∨
    ((wLow = 0 → low.Flat) ∧ low.Settled) ∧ (wHigh = 0 → high.Flat) ∧ high.Settled

/-- Weights are divided by their factor, and no node is redundant. -/
def WTree.Divided (factor : K → K → K) : WTree K → Prop
  | .leaf => True
  | .node _ wLow low wHigh high => factor wLow wHigh = 1 ∧ (wLow, low) ≠ (wHigh, high) ∧
    low.Divided factor ∧ high.Divided factor

/-- Edges of weight zero lead to the leaf. -/
def WTree.Tight : WTree K → Prop
  | .leaf => True
  | .node _ wLow low wHigh high => (wLow = 0 → low = .leaf) ∧ (wHigh = 0 → high = .leaf) ∧
    low.Tight ∧ high.Tight

/-- An edge without zero edges to nodes. -/
def TightEdge (w : WEdge K) : Prop := (w.1 = 0 → w.2 = .leaf) ∧ w.2.Tight

theorem WTree.reduced_iff {τ : WTree K} : τ.Reduced factor ↔ τ.Divided factor ∧ τ.Tight := by
  induction τ with
  | leaf => exact iff_of_true trivial ⟨trivial, trivial⟩
  | node level wLow low wHigh high ihl ihh =>
    unfold WTree.Reduced WTree.Divided WTree.Tight
    rw [ihl, ihh]
    tauto

/-- An edge without zero edges to nodes that are no constants. -/
def SettledEdge (v : WEdge K) : Prop := (v.1 = 0 → v.2.Flat) ∧ v.2.Settled

/-- A reduced tree has no zero edge to a node. -/
theorem WTree.Reduced.settled {τ : WTree K} (h : τ.Reduced factor) : τ.Settled := by
  induction τ with
  | leaf => trivial
  | node level wLow low wHigh high ihl ihh =>
    obtain ⟨-, -, hlow, hhigh, hrl, hrh⟩ := h
    refine Or.inr ⟨⟨fun h0 x y => ?_, ihl hrl⟩, fun h0 x y => ?_, ihh hrh⟩
    · rw [hlow h0]
      rfl
    · rw [hhigh h0]
      rfl

theorem SettledEdge.const (c : K) : SettledEdge (c, .leaf) := ⟨fun _ _ _ => rfl, trivial⟩

theorem RedEdge.smul {e : WEdge K} (h : RedEdge M factor e) {c : K} (hc : c ≠ 0) :
    RedEdge M factor (c * e.1, e.2) :=
  ⟨h.ordered, h.reduced, fun h0 => h.zero ((mul_eq_zero.mp h0).resolve_left hc)⟩

theorem redEdge_smul_iff {e : WEdge K} {c : K} (hc : c ≠ 0) :
    RedEdge M factor (c * e.1, e.2) ↔ RedEdge M factor e := by
  refine ⟨fun h => ?_, fun h => h.smul hc⟩
  have h' := h.smul (inv_ne_zero hc)
  dsimp only at h'
  rwa [inv_mul_cancel_left₀ hc] at h'

/-- A node is zero if both of its edges are. -/
theorem WTree.zero_node_iff {wLow wHigh : K} {low high : WTree K}
    (ho : (WTree.node level wLow low wHigh high).Ordered M) :
    (WTree.node level wLow low wHigh high).Zero ↔
      (∀ x, WEdge.val (wLow, low) x = 0) ∧ ∀ x, WEdge.val (wHigh, high) x = 0 := by
  constructor
  · intro h
    refine ⟨fun x => ?_, fun x => ?_⟩
    · have hx := h (Function.update x level false)
      rwa [WTree.eval_node, Function.update_self, if_neg (by decide),
        WTree.eval_update ho.2.2.1 ho.1] at hx
    · have hx := h (Function.update x level true)
      rwa [WTree.eval_node, Function.update_self, if_pos rfl,
        WTree.eval_update ho.2.2.2 ho.2.1] at hx
  · intro h x
    rw [WTree.eval_node]
    split
    · exact h.2 x
    · exact h.1 x

/-- A node that is built from two edges is reduced exactly if they are. -/
theorem Makes.redEdge_iff (hf : CommonFactor factor) (hs : Scales factor) (hcanon : canon)
    (h : Makes factor canon level a b c) (ha : a.2.Ordered M) (hb : b.2.Ordered M)
    (hla : level < a.2.topLevel M) (hlb : level < b.2.topLevel M) (hne : a.1 ≠ 0 ∨ b.1 ≠ 0) :
    RedEdge M factor c ↔ RedEdge M factor a ∧ RedEdge M factor b := by
  refine ⟨fun hc => ?_, fun hab => h.redEdge hf hs hcanon hab.1 hab.2 hla hlb⟩
  cases h with
  | zero low high => exact absurd (And.intro low high) (by tauto)
  | skip ne same => exact ⟨hc, same ▸ hc⟩
  | node ne differ =>
    obtain ⟨-, -, hlow, hhigh, hrl, hrh⟩ := hc.reduced
    exact ⟨⟨ha, hrl, fun h0 => hlow (by rw [h0, zero_div])⟩,
      ⟨hb, hrh, fun h0 => hhigh (by rw [h0, zero_div])⟩⟩

/-- Edge `w` has the function of edge `v`, at no smaller level, and is as the constructor builds
it exactly if no zero edge of `v` leads to more than a constant. -/
structure NormalForm (M : ℕ) (factor : K → K → K) (v w : WEdge K) : Prop where
  ordered : w.2.Ordered M
  level : v.2.topLevel M ≤ w.2.topLevel M
  val : ∀ x, w.val x = v.val x
  zero : v.1 ≠ 0 → w.1 = 0 → w.2 = .leaf
  ne_zero : w.1 ≠ 0 → ∃ x, w.val x ≠ 0
  divided : Scales factor → w.2.Divided factor
  red : Scales factor → (RedEdge M factor w ↔ SettledEdge v)

theorem NormalForm.const (c : K) : NormalForm M factor (c, .leaf) (c, .leaf) :=
  ⟨trivial, le_rfl, fun _ => rfl, fun _ _ => rfl,
    fun h => ⟨fun _ => false, mul_ne_zero h one_ne_zero⟩, fun _ => trivial,
    fun _ => iff_of_true (.const c) (.const c)⟩

theorem NormalForm.smul (hf : CommonFactor factor) {τ : WTree K} {w : WEdge K}
    (h : NormalForm M factor (1, τ) w) (c : K) :
    NormalForm M factor (c, τ) (c * w.1, w.2) := by
  have hval : ∀ x, w.val x = τ.eval x := fun x => by
    rw [h.val]
    exact one_mul _
  have hzero := h.zero one_ne_zero
  have hscaled : ∀ x, WEdge.val (c * w.1, w.2) x = c * w.val x := fun x => mul_assoc _ _ _
  refine ⟨h.ordered, h.level, fun x => ?_, fun hc h0 => ?_, fun h0 => ?_, h.divided,
    fun hs => ?_⟩
  · rw [hscaled, hval]
    rfl
  · exact hzero ((mul_eq_zero.mp h0).resolve_left hc)
  · obtain ⟨x, hx⟩ := h.ne_zero (right_ne_zero_of_mul h0)
    exact ⟨x, by rw [hscaled]; exact mul_ne_zero (left_ne_zero_of_mul h0) hx⟩
  have hred : RedEdge M factor w ↔ τ.Settled := by
    refine (h.red hs).trans ⟨fun hv => hv.2, fun hv => ⟨fun h0 => absurd h0 one_ne_zero, hv⟩⟩
  by_cases hc : c = 0
  · -- an edge of weight zero is reduced if it leads to the leaf
    subst hc
    rw [zero_mul]
    constructor
    · intro h0
      have hleaf : w.2 = .leaf := h0.zero rfl
      have hw : w = (w.1, .leaf) := Prod.ext rfl hleaf
      refine ⟨fun _ x y => ?_, hred.mp (hw ▸ .const _)⟩
      show τ.eval x = τ.eval y
      rw [← hval, ← hval, hw]
      rfl
    · intro hv
      have hconst : w = (w.val fun _ => false, .leaf) :=
        (hred.mpr hv.2).ext hf hs (.const _) fun x => by
          unfold WEdge.val at hval ⊢
          rw [hval, hval, hv.1 rfl x fun _ => false]
          exact (mul_one _).symm
      rw [congrArg Prod.snd hconst]
      exact .const 0
  · rw [redEdge_smul_iff hc, hred]
    exact ⟨fun hv => ⟨fun h0 => absurd h0 hc, hv⟩, fun hv => hv.2⟩

/-- The edge is left with zero edges to nodes exactly if the diagram had such to no constants. -/
theorem NormalForm.tight_iff {v w : WEdge K} (h : NormalForm M factor v w) (hs : Scales factor) :
    TightEdge w ↔ SettledEdge v := by
  rw [← h.red hs]
  constructor
  · exact fun ht => ⟨h.ordered, WTree.reduced_iff.mpr ⟨h.divided hs, ht.2⟩, ht.1⟩
  · exact fun hr => ⟨hr.zero, (WTree.reduced_iff.mp hr.reduced).2⟩

/-- Building a node from its normalised edges. -/
theorem NormalForm.make (hf : CommonFactor factor) {wLow wHigh : K} {low high : WTree K}
    (ho : (WTree.node level wLow low wHigh high).Ordered M) {u v w : WEdge K}
    (hu : NormalForm M factor (wLow, low) u) (hv : NormalForm M factor (wHigh, high) v)
    (hw : Makes factor True level u v w) :
    NormalForm M factor (1, .node level wLow low wHigh high) w := by
  have hlu : level < u.2.topLevel M := ho.1.trans_le hu.level
  have hlv : level < v.2.topLevel M := ho.2.1.trans_le hv.level
  obtain ⟨hord, hle⟩ := hw.ordered hu.ordered hv.ordered hlu hlv
  have hval : ∀ x, w.val x = (WTree.node level wLow low wHigh high).eval x := fun x => by
    rw [hw.val_eq hf, hu.val, hv.val, WTree.eval_node]
    rfl
  have hweight : w.1 = 0 → u.1 = 0 ∧ v.1 = 0 := fun h0 => by
    cases hw with
    | zero low high => exact ⟨low, high⟩
    | skip ne same => exact ⟨h0, same ▸ h0⟩
    | node ne differ => exact absurd h0 (hf.factor_ne ne)
  have hzero : (WTree.node level wLow low wHigh high).Zero → u.1 = 0 ∧ v.1 = 0 := fun hz => by
    obtain ⟨hzl, hzh⟩ := (WTree.zero_node_iff ho).mp hz
    constructor
    · by_contra h0
      obtain ⟨x, hx⟩ := hu.ne_zero h0
      exact hx ((hu.val x).trans (hzl x))
    · by_contra h0
      obtain ⟨x, hx⟩ := hv.ne_zero h0
      exact hx ((hv.val x).trans (hzh x))
  refine ⟨hord, hle, fun x => ?_, fun _ h0 => ?_, fun h0 => ?_, fun hs => ?_, fun hs => ?_⟩
  · rw [hval]
    exact (one_mul _).symm
  · cases hw with
    | zero low high => rfl
    | skip ne same => exact absurd (hweight h0) (not_and_or.mpr ne)
    | node ne differ => exact absurd h0 (hf.factor_ne ne)
  · -- a function that is zero has zero edges
    by_contra hno
    push Not at hno
    obtain ⟨hul, hvl⟩ := hzero fun x => (hval x).symm.trans (hno x)
    cases hw with
    | zero low high => exact h0 rfl
    | skip ne same => exact h0 hul
    | node ne differ => exact absurd (And.intro hul hvl) (not_and_or.mpr ne)
  · cases hw with
    | zero low high => trivial
    | skip ne same => exact hu.divided hs
    | node ne differ =>
      exact ⟨hs.divided (hf.factor_ne ne), differ_div (hf.factor_ne ne) (differ trivial),
        hu.divided hs, hv.divided hs⟩
  have hone : SettledEdge (1, WTree.node level wLow low wHigh high) ↔
      (WTree.node level wLow low wHigh high).Settled :=
    ⟨fun h => h.2, fun h => ⟨fun h0 => absurd h0 one_ne_zero, h⟩⟩
  rw [hone]
  by_cases hne : u.1 ≠ 0 ∨ v.1 ≠ 0
  · rw [hw.redEdge_iff hf hs trivial hu.ordered hv.ordered hlu hlv hne, hu.red hs, hv.red hs]
    exact ⟨fun h => Or.inr h, fun h => h.resolve_left fun hz => absurd (hzero hz) (not_and_or.mpr hne)⟩
  · have hz : u.1 = 0 ∧ v.1 = 0 := by tauto
    cases hw with
    | zero low high =>
      refine iff_of_true (.const 0) (Or.inl fun x => ?_)
      rw [← hval]
      exact zero_mul _
    | skip ne same => exact absurd ne hne
    | node ne differ => exact absurd ne hne

end Weighted
