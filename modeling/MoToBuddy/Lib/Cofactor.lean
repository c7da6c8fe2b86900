import MoToBuddy.Lib.DTree

/-!
# Generalised cofactors

Two ways to move an assignment into the set that a tree describes.

* `DTree.nearest`: follow the assignment down the tree and turn aside where the branch is `false`.
  The result satisfies the tree, and it is the assignment itself if that does.
* `DTree.literal`, `DTree.fixed`: the literals of a tree that is a conjunction of literals, and an
  assignment with these fixed.

A function after `nearest` splits at the first level that it or the tree decides
(`nearest_split`): on one branch only where the tree forces a side.
-/

namespace Decision.DTree

variable {M k level : ℕ} {t c low high : DTree Bool} {x : ℕ → Bool}

/-- The tree is the leaf `false`. -/
def isZero : DTree Bool → Bool
  | leaf b => !b
  | node _ _ _ => false

theorem isZero_iff : t.isZero = true ↔ t = leaf false := by
  cases t with
  | leaf b => cases b <;> simp [isZero]
  | node level low high => simp [isZero]

/-- A reduced tree that is never true is the leaf `false`. -/
theorem isZero_of_eval (hs : t.Sorted M) (hr : t.Reduced) (h : ∀ x, t.eval x = false) :
    t.isZero = true := isZero_iff.mpr (ext hs hr trivial trivial h)

/-- At most one branch of a reduced decision is `false`. -/
theorem Reduced.isZero_high (h : (node level low high).Reduced) (hl : low.isZero = true) :
    high.isZero = false := by
  by_contra hh
  rw [Bool.not_eq_false] at hh
  exact h.1 ((isZero_iff.mp hl).trans (isZero_iff.mp hh).symm)

/-- So is at most one branch at any level. -/
theorem Reduced.isZero_cof (h : c.Reduced) (hz : c.isZero = false)
    (hl : (c.cof k false).isZero = true) : (c.cof k true).isZero = false := by
  cases c with
  | leaf b => exact hz
  | node level low high =>
    by_cases hk : level = k
    · subst hk
      rw [cof_node, if_neg Bool.false_ne_true] at hl
      rw [cof_node, if_pos rfl]
      exact h.isZero_high hl
    · rw [cof_def, if_neg hk]
      rfl

/-! ## The nearest assignment -/

/-- The assignment that satisfies the tree and is found by following `x`. -/
def nearest : DTree Bool → (ℕ → Bool) → ℕ → Bool
  | leaf _, x => x
  | node level low high, x =>
    if low.isZero then Function.update (high.nearest x) level true
    else if high.isZero then Function.update (low.nearest x) level false
    else if x level then high.nearest x else low.nearest x

theorem nearest_node (level : ℕ) (low high : DTree Bool) (x : ℕ → Bool) :
    (node level low high).nearest x =
      if low.isZero then Function.update (high.nearest x) level true
      else if high.isZero then Function.update (low.nearest x) level false
      else if x level then high.nearest x else low.nearest x := rfl

/-- Levels above the root stay. -/
theorem nearest_of_above (h : c.Sorted M) (ha : c.Above (k + 1)) (x : ℕ → Bool) :
    c.nearest x k = x k := by
  induction c with
  | leaf b => rfl
  | node level low high ihl ihh =>
    obtain ⟨-, hal, hah, hsl, hsh⟩ := h
    have hlt : k + 1 ≤ level := ha
    have hl := ihl hsl (hal.mono (by omega))
    have hh := ihh hsh (hah.mono (by omega))
    rw [nearest_node]
    split_ifs
    · rw [Function.update_of_ne (by omega), hh]
    · rw [Function.update_of_ne (by omega), hl]
    · exact hh
    · exact hl

/-- The nearest assignment satisfies the tree. -/
theorem eval_nearest (hs : c.Sorted M) (hr : c.Reduced) (hc : c.isZero = false) (x : ℕ → Bool) :
    c.eval (c.nearest x) = true := by
  induction c with
  | leaf b => simpa [isZero] using hc
  | node level low high ihl ihh =>
    obtain ⟨-, hal, hah, hsl, hsh⟩ := hs
    rw [nearest_node, eval_node]
    by_cases hl : low.isZero = true
    · rw [if_pos hl, Function.update_self, if_pos rfl, eval_update hsh hah]
      exact ihh hsh hr.2.2 (hr.isZero_high hl)
    rw [if_neg hl]
    rw [Bool.not_eq_true] at hl
    by_cases hh : high.isZero = true
    · rw [if_pos hh, Function.update_self, if_neg Bool.false_ne_true, eval_update hsl hal]
      exact ihl hsl hr.2.1 hl
    rw [if_neg hh]
    rw [Bool.not_eq_true] at hh
    by_cases hx : x level = true
    · rw [if_pos hx, nearest_of_above hsh hah, if_pos hx]
      exact ihh hsh hr.2.2 hh
    · rw [if_neg hx, nearest_of_above hsl hal, if_neg hx]
      exact ihl hsl hr.2.1 hl

/-- An assignment that satisfies the tree is its own nearest one. -/
theorem nearest_eq_self (h : c.eval x = true) : c.nearest x = x := by
  induction c with
  | leaf b => rfl
  | node level low high ihl ihh =>
    rw [eval_node] at h
    rw [nearest_node]
    by_cases hx : x level = true
    · rw [if_pos hx] at h
      have hno : high.isZero ≠ true := fun hz => by
        rw [isZero_iff.mp hz] at h
        exact Bool.false_ne_true h
      rw [if_neg hno, if_pos hx, ihh h]
      split
      · exact Function.update_eq_self_iff.mpr hx.symm
      · rfl
    · rw [if_neg hx] at h
      have hno : low.isZero ≠ true := fun hz => by
        rw [isZero_iff.mp hz] at h
        exact Bool.false_ne_true h
      rw [if_neg hno, if_neg hx, ihl h]
      split
      · exact Function.update_eq_self_iff.mpr ((Bool.not_eq_true _).mp hx).symm
      · rfl

/-- The value that the tree forces at a level that it starts at, if it forces one. -/
def forced (k : ℕ) (c : DTree Bool) : Option Bool :=
  if (c.cof k false).isZero then some true
  else if (c.cof k true).isZero then some false
  else none

theorem forced_of_above (h : c.Above (k + 1)) (hc : c.isZero = false) : c.forced k = none := by
  unfold forced
  rw [cof_of_above h, cof_of_above h, hc, if_neg Bool.false_ne_true, if_neg Bool.false_ne_true]

/-- A function after `nearest` splits at a level that both trees start at or skip: it goes to the
side that the tree forces, else to the side of the assignment. -/
theorem nearest_split (ht : t.Sorted M) (hat : t.Above k) (hc : c.Sorted M) (hac : c.Above k)
    (hz : c.isZero = false) (x : ℕ → Bool) :
    t.eval (c.nearest x) = (t.cof k ((c.forced k).getD (x k))).eval
      ((c.cof k ((c.forced k).getD (x k))).nearest x) := by
  have hbelow : ∀ b, (c.cof k b).nearest x k = x k := fun b =>
    nearest_of_above (hc.cof k b) (hac.cof hc b) x
  cases c with
  | leaf b =>
    rw [forced_of_above (c := leaf b) trivial hz, ← eval_cof t k]
    rfl
  | node level low high =>
    by_cases hk : level = k
    · subst hk
      have hl : (node level low high).cof level false = low := cof_node false low high
      have hh : (node level low high).cof level true = high := cof_node true low high
      unfold forced
      rw [nearest_node, hl, hh]
      split_ifs with h1 h2 h3
      · rw [Option.getD_some, hh, eval_cof_eq ht hat]
      · rw [Option.getD_some, hl, eval_cof_eq ht hat]
      · rw [Option.getD_none, h3, hh, ← eval_cof t level, ← hh, hbelow, h3]
      · rw [Bool.not_eq_true] at h3
        rw [Option.getD_none, h3, hl, ← eval_cof t level, ← hl, hbelow, h3]
    · have ha : (node level low high).Above (k + 1) := by
        have hle : k ≤ level := hac
        show k + 1 ≤ level
        omega
      rw [forced_of_above ha hz, Option.getD_none, cof_of_above ha, ← eval_cof t k,
        nearest_of_above hc ha]

/-! ## Literals -/

/-- The value that a conjunction of literals gives a level. -/
def literal : DTree Bool → ℕ → Option Bool
  | leaf _ => fun _ => none
  | node level low high =>
    if low.isZero then Function.update high.literal level (some true)
    else Function.update low.literal level (some false)

/-- The assignment with the literals fixed. -/
def fixed (c : DTree Bool) (x : ℕ → Bool) (l : ℕ) : Bool := (c.literal l).getD (x l)

theorem literal_node (level : ℕ) (low high : DTree Bool) :
    (node level low high).literal = if low.isZero then
      Function.update high.literal level (some true)
    else Function.update low.literal level (some false) := rfl

theorem literal_of_above (h : c.Sorted M) (ha : c.Above (k + 1)) : c.literal k = none := by
  induction c with
  | leaf b => rfl
  | node level low high ihl ihh =>
    obtain ⟨-, hal, hah, hsl, hsh⟩ := h
    have hlt : k + 1 ≤ level := ha
    rw [literal_node]
    split
    · rw [Function.update_of_ne (by omega), ihh hsh (hah.mono (by omega))]
    · rw [Function.update_of_ne (by omega), ihl hsl (hal.mono (by omega))]

/-- A function after `fixed` splits at its root. -/
theorem eval_fixed (t : DTree Bool) (k : ℕ) (c : DTree Bool) (x : ℕ → Bool) :
    t.eval (c.fixed x) = (t.cof k ((c.literal k).getD (x k))).eval (c.fixed x) :=
  (eval_cof t k (c.fixed x)).symm

/-- The literals of a reduced tree that is a conjunction of literals. -/
theorem literal_eq (hs : c.Sorted M) (hr : c.Reduced) {L : ℕ → Option Bool}
    (h : ∀ x, c.eval x = true ↔ ∀ l b, L l = some b → x l = b) : c.literal = L := by
  -- the literals can be satisfied
  have hsat : c.eval (fun l => (L l).getD false) = true := (h _).mpr fun l b hl => by rw [hl]; rfl
  induction c generalizing L with
  | leaf b =>
    have hb : b = true := hsat
    have hnone : ∀ l, L l = none := by
      intro l
      cases hl : L l with
      | none => rfl
      | some v =>
        have := (h fun _ => !v).mp hb l v hl
        simp at this
    exact funext fun l => (hnone l).symm
  | node level low high ihl ihh =>
    have hs' := hs
    obtain ⟨-, hal, hah, hsl, hsh⟩ := hs
    -- without the root's literal the same holds of the branch that is not `false`
    have hrest : ∀ (v : Bool) (u : DTree Bool), L level = some v →
        (∀ x, u.eval x = (node level low high).eval (Function.update x level v)) →
        ∀ x, u.eval x = true ↔ ∀ l b, Function.update L level none l = some b → x l = b := by
      intro v u hv hu x
      rw [hu, h]
      refine forall_congr' fun l => ?_
      by_cases hl : l = level
      · subst hl
        simp [hv]
      · simp [Function.update_of_ne hl]
    have hlow : ∀ x, low.eval x = (node level low high).eval (Function.update x level false) :=
      fun x => (eval_node_false hs' x).symm
    have hhigh : ∀ x, high.eval x = (node level low high).eval (Function.update x level true) :=
      fun x => (eval_node_true hs' x).symm
    have hself : ∀ v, L level = some v →
        Function.update (Function.update L level none) level (some v) = L := by
      intro v hv
      rw [Function.update_idem, ← hv, Function.update_eq_self]
    cases hL : L level with
    | none =>
      -- a level without a literal would be redundant
      refine absurd (ext hsl hr.2.1 hsh hr.2.2 fun x => ?_) hr.1
      rw [hlow, hhigh, Bool.eq_iff_iff, h, h]
      refine forall₂_congr fun l b => ?_
      by_cases hl : l = level
      · simp [hl, hL]
      · simp [Function.update_of_ne hl]
    | some v =>
      rw [literal_node]
      cases v with
      | true =>
        have hz : low.isZero = true := isZero_of_eval hsl hr.2.1 fun x => by
          rw [hlow, Bool.eq_false_iff, Ne, h]
          intro hall
          have := hall level true hL
          simp at this
        have hr' := hrest true high hL hhigh
        rw [if_pos hz, ihh hsh hr.2.2 hr' ((hr' _).mpr fun l b hl => by rw [hl]; rfl), hself true hL]
      | false =>
        have hz : high.isZero = true := isZero_of_eval hsh hr.2.2 fun x => by
          rw [hhigh, Bool.eq_false_iff, Ne, h]
          intro hall
          have := hall level false hL
          simp at this
        have hno : low.isZero ≠ true := fun hl =>
          Bool.false_ne_true ((hr.isZero_high hl).symm.trans hz)
        have hr' := hrest false low hL hlow
        rw [if_neg hno, ihl hsl hr.2.1 hr' ((hr' _).mpr fun l b hl => by rw [hl]; rfl),
          hself false hL]

end Decision.DTree
