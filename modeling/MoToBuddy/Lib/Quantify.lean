import Mathlib.Logic.Function.Basic
import Mathlib.Tactic.Common

/-!
# Quantification of boolean functions

A function of an assignment is quantified over a set of variables: the disjunction (`true`) or
the conjunction (`false`) of its values at all assignments that agree outside the set. Both are
one notion, with the value that decides the result as a parameter.

* `quantify_true`, `quantify_false`: what the two quantifiers mean.
* `quantify_of_mem`, `quantify_of_not_mem`: the step for one variable, in terms of the
  functions with the variable fixed.
-/

namespace BoolFun

variable {α : Type*} {V : α → Prop} {b : Bool} {f : (α → Bool) → Bool} {x : α → Bool}

/-- The assignments agree outside the set. -/
def Agree (V : α → Prop) (x y : α → Bool) : Prop := ∀ k, ¬ V k → y k = x k

/-- Some assignment that agrees with `x` outside the set gives `b`. -/
def Attains (V : α → Prop) (b : Bool) (f : (α → Bool) → Bool) (x : α → Bool) : Prop :=
  ∃ y, Agree V x y ∧ f y = b

open Classical in
/-- The disjunction or the conjunction over the set. -/
noncomputable def quantify (V : α → Prop) (b : Bool) (f : (α → Bool) → Bool) (x : α → Bool) :
    Bool := if Attains V b f x then b else !b

/-- The binary operator of a quantifier. -/
def comb (b p q : Bool) : Bool := if p = b ∨ q = b then b else !b

theorem comb_true (p q : Bool) : comb true p q = (p || q) := by cases p <;> cases q <;> rfl

theorem comb_false (p q : Bool) : comb false p q = (p && q) := by cases p <;> cases q <;> rfl

theorem quantify_eq_iff : quantify V b f x = b ↔ Attains V b f x := by
  unfold quantify
  split
  · rename_i h
    exact ⟨fun _ => h, fun _ => rfl⟩
  · rename_i h
    exact ⟨fun hb => by cases b <;> exact absurd hb (by decide), fun h' => absurd h' h⟩

theorem quantify_true : quantify V true f x = true ↔ ∃ y, Agree V x y ∧ f y = true :=
  quantify_eq_iff

theorem quantify_false : quantify V false f x = true ↔ ∀ y, Agree V x y → f y = true := by
  rw [← Bool.not_eq_false, quantify_eq_iff]
  constructor
  · intro h y hy
    by_contra hf
    exact h ⟨y, hy, Bool.not_eq_true _ ▸ hf⟩
  · rintro h ⟨y, hy, hf⟩
    rw [h y hy] at hf
    exact Bool.false_ne_true hf.symm

theorem Agree.refl (V : α → Prop) (x : α → Bool) : Agree V x x := fun _ _ => rfl

/-- A function that the set does not matter for is its own quantification. -/
theorem quantify_eq_self (h : ∀ y, Agree V x y → f y = f x) : quantify V b f x = f x := by
  by_cases hb : f x = b
  · rw [hb, quantify_eq_iff]
    exact ⟨x, .refl V x, hb⟩
  · have hno : ¬ quantify V b f x = b := by
      rw [quantify_eq_iff]
      rintro ⟨y, hy, hf⟩
      exact hb ((h y hy).symm.trans hf)
    revert hb hno
    cases quantify V b f x <;> cases f x <;> cases b <;> simp

theorem quantify_const (c : Bool) : quantify V b (fun _ => c) x = c := quantify_eq_self fun _ _ => rfl

/-- Two bits are equal if they are the same one of two values at the same time. -/
theorem eq_of_iff {p q b : Bool} (h : p = b ↔ q = b) : p = q := by
  revert h
  cases p <;> cases q <;> cases b <;> simp

/-- A variable of the set splits a quantification. -/
theorem quantify_of_mem [DecidableEq α] {k : α} (hk : V k) :
    quantify V b f x = comb b (quantify V b (fun y => f (Function.update y k false)) x)
      (quantify V b (fun y => f (Function.update y k true)) x) := by
  have hfix : ∀ (c : Bool) (y : α → Bool), Agree V x y → Agree V x (Function.update y k c) := by
    intro c y hy j hj
    have hne : j ≠ k := fun he => hj (he ▸ hk)
    rw [Function.update_of_ne hne]
    exact hy j hj
  apply eq_of_iff (b := b)
  have hcomb : ∀ p q : Bool, comb b p q = b ↔ p = b ∨ q = b := by
    intro p q
    cases p <;> cases q <;> cases b <;> decide
  rw [hcomb, quantify_eq_iff, quantify_eq_iff, quantify_eq_iff]
  constructor
  · rintro ⟨y, hy, hf⟩
    have hself : Function.update y k (y k) = y := Function.update_eq_self k y
    cases hyk : y k with
    | false =>
      rw [hyk] at hself
      exact Or.inl ⟨y, hy, (congrArg f hself).trans hf⟩
    | true =>
      rw [hyk] at hself
      exact Or.inr ⟨y, hy, (congrArg f hself).trans hf⟩
  · rintro (⟨y, hy, hf⟩ | ⟨y, hy, hf⟩)
    · exact ⟨_, hfix false y hy, hf⟩
    · exact ⟨_, hfix true y hy, hf⟩

/-- Any other variable keeps its value. -/
theorem quantify_of_not_mem [DecidableEq α] {k : α} (hk : ¬ V k) :
    quantify V b f x = if x k then quantify V b (fun y => f (Function.update y k true)) x
      else quantify V b (fun y => f (Function.update y k false)) x := by
  have hfix : quantify V b f x = quantify V b (fun y => f (Function.update y k (x k))) x := by
    apply eq_of_iff (b := b)
    rw [quantify_eq_iff, quantify_eq_iff]
    have hself : ∀ y, Agree V x y → Function.update y k (x k) = y := by
      intro y hy
      rw [← hy k hk, Function.update_eq_self]
    constructor
    · rintro ⟨y, hy, hf⟩
      exact ⟨y, hy, (congrArg f (hself y hy)).trans hf⟩
    · rintro ⟨y, hy, hf⟩
      exact ⟨y, hy, (congrArg f (hself y hy)).symm.trans hf⟩
  rw [hfix]
  cases x k <;> rfl

end BoolFun
