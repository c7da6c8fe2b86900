import Mathlib.Logic.Function.Basic
import Mathlib.Tactic.Common

/-!
# Decision trees

A decision diagram, read from one of its nodes, is a binary tree: a decision at a level, or a
leaf. Sharing is forgotten, levels may be skipped.

* `DTree.eval`: the leaf that an assignment of the levels selects.
* `DTree.Above`, `DTree.Sorted`: where the levels start, and that they increase along every
  path up to a bound.
* `DTree.cof`: the branches of a tree at a level that it starts at or skips.
* `DTree.Reduced`, `DTree.ext`: sorted trees without redundant decisions are determined by
  their function.
* `DTree.pathEnd`, `DTree.after`: where the path of an assignment ends, and what is left of a tree
  after the decisions on some first levels.
* `DTree.Has`: the subtrees of a tree.
* `DTree.join`: a node that is only made for different branches.
-/

namespace Decision

/-- A decision tree. -/
inductive DTree (L : Type*)
  | leaf (l : L)
  | node (level : ℕ) (low high : DTree L)
  deriving DecidableEq, Repr

namespace DTree

variable {L : Type*} {M k : ℕ} {t t' : DTree L}

/-- The leaf that an assignment selects. -/
def eval : DTree L → (ℕ → Bool) → L
  | leaf l, _ => l
  | node level low high, x => if x level then high.eval x else low.eval x

/-- The root's level is at least `k`; a leaf is below all levels. -/
def Above (k : ℕ) : DTree L → Prop
  | leaf _ => True
  | node level _ _ => k ≤ level

/-- Levels are below `M` and increase along every path. -/
def Sorted (M : ℕ) : DTree L → Prop
  | leaf _ => True
  | node level low high =>
    level < M ∧ low.Above (level + 1) ∧ high.Above (level + 1) ∧ low.Sorted M ∧ high.Sorted M

/-- No decision has equal branches. -/
def Reduced : DTree L → Prop
  | leaf _ => True
  | node _ low high => low ≠ high ∧ low.Reduced ∧ high.Reduced

@[simp] theorem eval_leaf (l : L) (x : ℕ → Bool) : (leaf l).eval x = l := rfl

theorem eval_node (level : ℕ) (low high : DTree L) (x : ℕ → Bool) :
    (node level low high).eval x = if x level then high.eval x else low.eval x := rfl

@[simp] theorem above_leaf (l : L) : (leaf l).Above k := trivial

theorem Above.mono {j : ℕ} (h : t.Above k) (hj : j ≤ k) : t.Above j := by
  cases t with
  | leaf l => trivial
  | node level low high => exact Nat.le_trans hj h

theorem above_zero (t : DTree L) : t.Above 0 := by
  cases t with
  | leaf l => trivial
  | node level low high => exact Nat.zero_le level

/-- A function only depends on the levels from its root on. -/
theorem eval_update (h : t.Sorted M) {level : ℕ} (ha : t.Above (level + 1)) (x : ℕ → Bool)
    (b : Bool) : t.eval (Function.update x level b) = t.eval x := by
  induction t with
  | leaf l => rfl
  | node level' low high ihl ihh =>
    obtain ⟨-, hal, hah, hl, hh⟩ := h
    have hlt : level + 1 ≤ level' := ha
    rw [eval_node, eval_node, Function.update_of_ne (by omega),
      ihl hl (hal.mono (by omega)), ihh hh (hah.mono (by omega))]

/-- A function only depends on the levels that the tree can decide. -/
theorem eval_congr (h : t.Sorted M) (ha : t.Above k) {x y : ℕ → Bool}
    (hxy : ∀ j, k ≤ j → j < M → x j = y j) : t.eval x = t.eval y := by
  induction t generalizing k with
  | leaf l => rfl
  | node level low high ihl ihh =>
    obtain ⟨hlt, hal, hah, hl, hh⟩ := h
    have hle : k ≤ level := ha
    have hup : ∀ j, level + 1 ≤ j → j < M → x j = y j := fun j hj => hxy j (by omega)
    rw [eval_node, eval_node, hxy level hle hlt, ihl hl hal hup, ihh hh hah hup]

/-- The levels on the path of high branches. -/
def highPath : DTree L → List ℕ
  | leaf _ => []
  | node level _ high => level :: highPath high

theorem highPath_bound (h : t.Sorted M) (ha : t.Above k) {j : ℕ} (hj : j ∈ t.highPath) :
    k ≤ j ∧ j < M := by
  induction t generalizing k with
  | leaf l => exact absurd hj List.not_mem_nil
  | node level low high _ ihh =>
    obtain ⟨hlt, -, hah, -, hh⟩ := h
    have hle : k ≤ level := ha
    rcases List.mem_cons.mp hj with rfl | hj
    · exact ⟨hle, hlt⟩
    · have := ihh hh hah hj
      omega

theorem highPath_pairwise (h : t.Sorted M) : t.highPath.Pairwise (· < ·) := by
  induction t with
  | leaf l => exact .nil
  | node level low high _ ihh =>
    obtain ⟨-, -, hah, -, hh⟩ := h
    refine List.pairwise_cons.mpr ⟨fun j hj => ?_, ihh hh⟩
    have := highPath_bound hh hah hj
    omega

/-- The branch at level `k`, for a tree that starts there; any other tree is its own branch. -/
def cof (k : ℕ) (b : Bool) : DTree L → DTree L
  | leaf l => leaf l
  | node level low high => if level = k then if b then high else low else node level low high

theorem cof_def (k : ℕ) (b : Bool) (level : ℕ) (low high : DTree L) :
    (node level low high).cof k b =
      if level = k then if b then high else low else node level low high := rfl

theorem cof_node (b : Bool) (low high : DTree L) :
    (node k low high).cof k b = if b then high else low := if_pos rfl

theorem cof_of_above (h : t.Above (k + 1)) (b : Bool) : t.cof k b = t := by
  cases t with
  | leaf l => rfl
  | node level low high =>
    have hlt : k + 1 ≤ level := h
    exact if_neg (by omega)

/-- The branches determine the function. -/
theorem eval_cof (t : DTree L) (k : ℕ) (x : ℕ → Bool) : (t.cof k (x k)).eval x = t.eval x := by
  cases t with
  | leaf l => rfl
  | node level low high =>
    rw [cof_def]
    split
    · rename_i h
      rw [eval_node, h]
      split <;> rfl
    · rfl

theorem Above.cof (h : t.Sorted M) (ha : t.Above k) (b : Bool) : (t.cof k b).Above (k + 1) := by
  cases t with
  | leaf l => trivial
  | node level low high =>
    rw [cof_def]
    split
    · rename_i heq
      rw [← heq]
      cases b
      · exact h.2.1
      · exact h.2.2.1
    · have hle : k ≤ level := ha
      show k + 1 ≤ level
      omega

theorem Sorted.cof (h : t.Sorted M) (k : ℕ) (b : Bool) : (t.cof k b).Sorted M := by
  cases t with
  | leaf l => trivial
  | node level low high =>
    rw [cof_def]
    split
    · cases b
      · exact h.2.2.2.1
      · exact h.2.2.2.2
    · exact h

/-- The branch is the tree with the level fixed. -/
theorem eval_cof_eq (h : t.Sorted M) (ha : t.Above k) (b : Bool) (x : ℕ → Bool) :
    (t.cof k b).eval x = t.eval (Function.update x k b) := by
  rw [← eval_cof t k, Function.update_self, eval_update (h.cof k b) (ha.cof h b)]

theorem eval_node_false (h : (node k t t').Sorted M) (x : ℕ → Bool) :
    (node k t t').eval (Function.update x k false) = t.eval x := by
  rw [eval_node, Function.update_self, if_neg Bool.false_ne_true]
  exact eval_update h.2.2.2.1 h.2.1 x false

theorem eval_node_true (h : (node k t t').Sorted M) (x : ℕ → Bool) :
    (node k t t').eval (Function.update x k true) = t'.eval x := by
  rw [eval_node, Function.update_self, if_pos rfl]
  exact eval_update h.2.2.2.2 h.2.2.1 x true

/-- Sorted and reduced trees for one function are equal. -/
theorem ext (h : t.Sorted M) (hr : t.Reduced) (h' : t'.Sorted M) (hr' : t'.Reduced)
    (heq : ∀ x, t.eval x = t'.eval x) : t = t' := by
  induction t generalizing t' with
  | leaf l =>
    induction t' with
    | leaf l' => rw [show l = l' from heq fun _ => false]
    | node level low high ihl ihh =>
      -- both branches are the leaf, so the decision is redundant
      have hlow : leaf l = low := ihl h'.2.2.2.1 hr'.2.1 fun x => by
        rw [← eval_node_false h' x, ← heq]
        rfl
      have hhigh : leaf l = high := ihh h'.2.2.2.2 hr'.2.2 fun x => by
        rw [← eval_node_true h' x, ← heq]
        rfl
      exact absurd (hlow.symm.trans hhigh) hr'.1
  | node level low high ihl ihh =>
    -- a decision on a level that an equal tree does not decide is redundant
    have hskip : ∀ u : DTree L, u.Sorted M → u.Above (level + 1) →
        (∀ x, (node level low high).eval x = u.eval x) → low = high := by
      intro u hu ha hx
      refine ihl h.2.2.2.1 hr.2.1 h.2.2.2.2 hr.2.2 fun x => ?_
      rw [← eval_node_false h x, ← eval_node_true h x, hx, hx, eval_update hu ha,
        eval_update hu ha]
    induction t' with
    | leaf l' => exact absurd (hskip _ h' trivial heq) hr.1
    | node level' low' high' ihl' ihh' =>
      rcases Nat.lt_trichotomy level level' with hlt | heql | hgt
      · exact absurd (hskip _ h' hlt heq) hr.1
      · subst heql
        have hlow : low = low' := ihl h.2.2.2.1 hr.2.1 h'.2.2.2.1 hr'.2.1 fun x => by
          rw [← eval_node_false h x, ← eval_node_false h' x, heq]
        have hhigh : high = high' := ihh h.2.2.2.2 hr.2.2 h'.2.2.2.2 hr'.2.2 fun x => by
          rw [← eval_node_true h x, ← eval_node_true h' x, heq]
        rw [hlow, hhigh]
      · -- the other tree's branches both equal this one
        have hself : (node level low high).Above (level' + 1) := hgt
        have hlow : node level low high = low' :=
          ihl' h'.2.2.2.1 hr'.2.1 fun x => by
            rw [← eval_node_false h' x, ← heq, eval_update h hself]
        have hhigh : node level low high = high' :=
          ihh' h'.2.2.2.2 hr'.2.2 fun x => by
            rw [← eval_node_true h' x, ← heq, eval_update h hself]
        exact absurd (hlow.symm.trans hhigh) hr'.1

/-! ## Paths -/

/-- One more than the last level that is decided on the path of an assignment. -/
def pathEnd : DTree L → (ℕ → Bool) → ℕ
  | leaf _, _ => 0
  | node level low high, x => max (level + 1) (if x level then high.pathEnd x else low.pathEnd x)

/-- What is left of a tree after the decisions of an assignment on the levels below `k`. -/
def after (k : ℕ) : DTree L → (ℕ → Bool) → DTree L
  | leaf l, _ => leaf l
  | node level low high, x =>
    if level < k then if x level then high.after k x else low.after k x else node level low high

theorem after_node (level : ℕ) (low high : DTree L) (x : ℕ → Bool) :
    (node level low high).after k x =
      if level < k then if x level then high.after k x else low.after k x
      else node level low high := rfl

theorem pathEnd_node (level : ℕ) (low high : DTree L) (x : ℕ → Bool) :
    (node level low high).pathEnd x =
      max (level + 1) (if x level then high.pathEnd x else low.pathEnd x) := rfl

theorem after_of_above (h : t.Above k) (x : ℕ → Bool) : t.after k x = t := by
  cases t with
  | leaf l => rfl
  | node level low high =>
    have hle : k ≤ level := h
    exact if_neg (Nat.not_lt.mpr hle)

/-- Levels that a tree does not decide do not matter. -/
theorem after_max (h : t.Above k) (m : ℕ) (x : ℕ → Bool) : t.after (max k m) x = t.after m x := by
  rcases Nat.le_total k m with hkm | hkm
  · rw [Nat.max_eq_right hkm]
  · rw [Nat.max_eq_left hkm, after_of_above h, after_of_above (h.mono hkm)]

/-- The decision on the first level comes first. -/
theorem after_cof {m : ℕ} (hm : k < m) (x : ℕ → Bool) :
    (t.cof k (x k)).after m x = t.after m x := by
  cases t with
  | leaf l => rfl
  | node level low high =>
    rw [cof_def]
    by_cases h : level = k
    · subst h
      rw [if_pos rfl, after_node, if_pos hm]
      cases x level <;> rfl
    · rw [if_neg h]

/-- The path of a tree goes on in its branch. -/
theorem pathEnd_cof (t : DTree L) (k : ℕ) (x : ℕ → Bool) :
    max (k + 1) ((t.cof k (x k)).pathEnd x) = max (k + 1) (t.pathEnd x) := by
  cases t with
  | leaf l => rfl
  | node level low high =>
    rw [cof_def]
    by_cases heq : level = k
    · subst heq
      rw [if_pos rfl, pathEnd_node, ← Nat.max_assoc, Nat.max_self]
      cases x level <;> rfl
    · rw [if_neg heq]

theorem lt_pathEnd (h : (node k t t').Above M) (x : ℕ → Bool) : M < (node k t t').pathEnd x := by
  have hle : M ≤ k := h
  rw [pathEnd_node]
  omega

@[simp] theorem eval_after (t : DTree L) (x : ℕ → Bool) : (t.after k x).eval x = t.eval x := by
  induction t with
  | leaf l => rfl
  | node level low high ihl ihh =>
    rw [after_node]
    split
    · rw [eval_node]
      split
      · exact ihh
      · exact ihl
    · rfl

theorem Above.after (h : t.Sorted M) (k : ℕ) (x : ℕ → Bool) : (t.after k x).Above k := by
  induction t with
  | leaf l => trivial
  | node level low high ihl ihh =>
    obtain ⟨-, -, -, hl, hh⟩ := h
    rw [after_node]
    split
    · split
      · exact ihh hh
      · exact ihl hl
    · rename_i hlt
      exact Nat.not_lt.mp hlt

theorem Sorted.after (h : t.Sorted M) (k : ℕ) (x : ℕ → Bool) : (t.after k x).Sorted M := by
  induction t with
  | leaf l => trivial
  | node level low high ihl ihh =>
    rw [after_node]
    split
    · split
      · exact ihh h.2.2.2.2
      · exact ihl h.2.2.2.1
    · exact h

/-- What is left only depends on the decisions that were made. -/
theorem after_congr {x y : ℕ → Bool} (hxy : ∀ j < k, x j = y j) (t : DTree L) :
    t.after k x = t.after k y := by
  induction t with
  | leaf l => rfl
  | node level low high ihl ihh =>
    rw [after_node, after_node]
    split
    · rename_i hlt
      rw [hxy level hlt, ihl, ihh]
    · rfl

/-- A level above the tree does not matter. -/
theorem after_update (h : t.Sorted M) {level : ℕ} (ha : t.Above (level + 1)) (x : ℕ → Bool)
    (b : Bool) : t.after k (Function.update x level b) = t.after k x := by
  induction t with
  | leaf l => rfl
  | node level' low high ihl ihh =>
    obtain ⟨-, hal, hah, hl, hh⟩ := h
    have hlt : level + 1 ≤ level' := ha
    rw [after_node, after_node, Function.update_of_ne (by omega),
      ihl hl (hal.mono (by omega)), ihh hh (hah.mono (by omega))]

/-- Assignments that agree until the path ends have the same path. -/
theorem path_congr {x y : ℕ → Bool} (hk : t.pathEnd x ≤ k) (hxy : ∀ j < k, x j = y j) :
    t.eval y = t.eval x ∧ t.pathEnd y = t.pathEnd x := by
  induction t with
  | leaf l => exact ⟨rfl, rfl⟩
  | node level low high ihl ihh =>
    rw [pathEnd_node] at hk
    have hlevel : x level = y level := hxy level (by omega)
    rw [eval_node, eval_node, pathEnd_node, pathEnd_node, ← hlevel]
    cases hx : x level
    · rw [hx] at hk
      obtain ⟨he, hp⟩ := ihl (Nat.le_trans (Nat.le_max_right _ _) hk)
      exact ⟨he, congrArg _ hp⟩
    · rw [hx] at hk
      obtain ⟨he, hp⟩ := ihh (Nat.le_trans (Nat.le_max_right _ _) hk)
      exact ⟨he, congrArg _ hp⟩

/-! ## Subtrees -/

/-- `t.Has u` if `u` is a subtree of `t`. -/
def Has : DTree L → DTree L → Prop
  | leaf l, u => u = leaf l
  | node level low high, u => u = node level low high ∨ low.Has u ∨ high.Has u

/-- A decision with equal branches. -/
def Redundant : DTree L → Prop
  | leaf _ => False
  | node _ low high => low = high

theorem has_self (t : DTree L) : t.Has t := by
  cases t with
  | leaf l => rfl
  | node level low high => exact .inl rfl

/-- A tree is reduced if it has no redundant decision. -/
theorem reduced_iff_has : t.Reduced ↔ ∀ u, t.Has u → ¬ u.Redundant := by
  induction t with
  | leaf l =>
    refine iff_of_true trivial ?_
    rintro _ rfl
    exact id
  | node level low high ihl ihh =>
    show low ≠ high ∧ low.Reduced ∧ high.Reduced ↔ _
    rw [ihl, ihh]
    constructor
    · rintro ⟨hne, hl, hh⟩ u (rfl | hu | hu)
      · exact hne
      · exact hl u hu
      · exact hh u hu
    · intro h
      exact ⟨h _ (has_self _), fun u hu => h u (.inr (.inl hu)), fun u hu => h u (.inr (.inr hu))⟩

/-! ## Other labels of the leaves -/

/-- The tree with other leaves. -/
def map {L' : Type*} (f : L → L') : DTree L → DTree L'
  | leaf l => leaf (f l)
  | node level low high => node level (map f low) (map f high)

section Map

variable {L' : Type*} (f : L → L')

@[simp] theorem eval_map (t : DTree L) (x : ℕ → Bool) : (t.map f).eval x = f (t.eval x) := by
  induction t with
  | leaf l => rfl
  | node level low high ihl ihh =>
    simp only [map, eval_node, ihl, ihh]
    split <;> rfl

@[simp] theorem above_map {t : DTree L} : (t.map f).Above k ↔ t.Above k := by
  cases t <;> exact Iff.rfl

@[simp] theorem sorted_map {t : DTree L} : (t.map f).Sorted M ↔ t.Sorted M := by
  induction t with
  | leaf l => exact Iff.rfl
  | node level low high ihl ihh => simp [map, Sorted, ihl, ihh]

end Map

/-! ## Nodes that are only made if they are needed -/

instance decidableAbove (k : ℕ) : (t : DTree L) → Decidable (t.Above k)
  | leaf _ => .isTrue trivial
  | node level _ _ => inferInstanceAs (Decidable (k ≤ level))

open Classical in
/-- The node with two branches, or the branch if they are equal. -/
noncomputable def join (level : ℕ) (low high : DTree L) : DTree L :=
  if low = high then low else node level low high

section Join

variable {level : ℕ} {low high : DTree L}

theorem join_self (level : ℕ) (t : DTree L) : join level t t = t := if_pos rfl

theorem join_of_ne (h : low ≠ high) : join level low high = node level low high := if_neg h

@[simp] theorem eval_join (x : ℕ → Bool) :
    (join level low high).eval x = if x level then high.eval x else low.eval x := by
  unfold join
  split
  · rename_i h
    rw [h, ite_self]
  · exact eval_node level low high x

theorem join_of_reduced (h : (node level low high).Reduced) :
    join level low high = node level low high := join_of_ne h.1

/-- A node with reduced branches is reduced, and the other way round. -/
theorem reduced_join : (join level low high).Reduced ↔ low.Reduced ∧ high.Reduced := by
  unfold join
  split
  · rename_i h
    rw [h, and_self]
  · rename_i h
    exact and_iff_right h

end Join

end DTree

end Decision
