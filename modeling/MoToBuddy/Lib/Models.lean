import Mathlib.Algebra.BigOperators.Group.Finset.Powerset
import Mathlib.Algebra.BigOperators.Ring.Finset
import Mathlib.Tactic.Ring
import MoToBuddy.Lib.Rename

/-!
# Counting satisfying assignments

An assignment of the variables in a finite set is the subset of those that are true. `models`
counts the assignments that satisfy a function; a variable that the function does not look at
doubles the count. For a sorted tree `DTree.countBelow` computes the count from those of the
branches, each scaled by the levels that its edge skips.
-/

namespace Decision

open Finset

/-! ## Functions -/

namespace BoolFun

variable {f g : (ℕ → Bool) → Bool} {S T : Finset ℕ} {k : ℕ}

/-- The assignment in which the variables of a set are true. -/
def chosen (A : Finset ℕ) (v : ℕ) : Bool := decide (v ∈ A)

/-- The number of assignments of the variables in `S` that satisfy `f`. -/
def models (S : Finset ℕ) (f : (ℕ → Bool) → Bool) : ℕ := ∑ A ∈ S.powerset, (f (chosen A)).toNat

theorem models_eq_card (S : Finset ℕ) (f : (ℕ → Bool) → Bool) :
    models S f = (S.powerset.filter fun A => f (chosen A) = true).card := by
  rw [card_filter]
  refine sum_congr rfl fun A _ => ?_
  cases f (chosen A) <;> rfl

theorem models_congr (h : ∀ A ⊆ S, f (chosen A) = g (chosen A)) : models S f = models S g :=
  sum_congr rfl fun A hA => by rw [h A (mem_powerset.mp hA)]

theorem models_const (S : Finset ℕ) (b : Bool) :
    models S (fun _ => b) = 2 ^ S.card * b.toNat := by
  unfold models
  rw [sum_const, card_powerset, nsmul_eq_mul, Nat.cast_id]

theorem chosen_insert (A : Finset ℕ) (k : ℕ) :
    chosen (insert k A) = Function.update (chosen A) k true := by
  funext v
  unfold chosen
  rw [Function.update_apply]
  by_cases hv : v = k <;> simp [hv]

theorem chosen_of_not_mem {A : Finset ℕ} (hk : k ∉ A) :
    Function.update (chosen A) k false = chosen A := by
  funext v
  unfold chosen
  rw [Function.update_apply]
  by_cases hv : v = k <;> simp [hv, hk]

/-- Counting both values of a variable. -/
theorem models_insert (hk : k ∉ S) (f : (ℕ → Bool) → Bool) :
    models (insert k S) f = models S (fun x => f (Function.update x k false)) +
      models S fun x => f (Function.update x k true) := by
  unfold models
  rw [sum_powerset_insert hk]
  congr 1
  · refine sum_congr rfl fun A hA => ?_
    have hkA : k ∉ A := fun h => hk (mem_powerset.mp hA h)
    show _ = (f (Function.update (chosen A) k false)).toNat
    rw [chosen_of_not_mem hkA]
  · refine sum_congr rfl fun A _ => ?_
    show _ = (f (Function.update (chosen A) k true)).toNat
    rw [chosen_insert]

/-- The function does not look at the variable. -/
def Ignores (f : (ℕ → Bool) → Bool) (k : ℕ) : Prop := ∀ x b, f (Function.update x k b) = f x

theorem models_insert_of_ignores (hk : k ∉ S) (hf : Ignores f k) :
    models (insert k S) f = 2 * models S f := by
  rw [models_insert hk, two_mul]
  congr 1
  · exact models_congr fun A _ => hf _ _
  · exact models_congr fun A _ => hf _ _

/-- Every variable that is not looked at doubles the count. -/
theorem models_union (h : Disjoint T S) (hf : ∀ k ∈ T, Ignores f k) :
    models (T ∪ S) f = 2 ^ T.card * models S f := by
  induction T using Finset.induction_on with
  | empty => simp
  | insert k T hkT ih =>
    rw [disjoint_insert_left] at h
    have hk : k ∉ T ∪ S := by simp [hkT, h.1]
    have hrest := ih h.2 fun j hj => hf j (mem_insert_of_mem hj)
    rw [insert_union, models_insert_of_ignores hk (hf k (mem_insert_self k T)), hrest,
      card_insert_of_notMem hkT, pow_succ]
    ring

/-- Counting under other names. -/
theorem models_rename {n : ℕ} {ρ τ : ℕ → ℕ} (hρ : ∀ k < n, ρ k < n ∧ τ (ρ k) = k)
    (hτ : ∀ k < n, τ k < n ∧ ρ (τ k) = k) (h : ∀ A ⊆ range n,
      f (chosen A) = g (chosen (A.image τ))) : models (range n) f = models (range n) g := by
  have hsub : ∀ (α β : ℕ → ℕ), (∀ k < n, α k < n ∧ β (α k) = k) → ∀ A ⊆ range n,
      A.image α ⊆ range n ∧ (A.image α).image β = A := by
    intro α β hα A hA
    refine ⟨fun k hk => ?_, ?_⟩
    · obtain ⟨j, hj, rfl⟩ := mem_image.mp hk
      exact mem_range.mpr (hα j (mem_range.mp (hA hj))).1
    · rw [image_image]
      ext k
      simp only [mem_image, Function.comp_apply]
      constructor
      · rintro ⟨j, hj, rfl⟩
        rwa [(hα j (mem_range.mp (hA hj))).2]
      · exact fun hk => ⟨k, hk, (hα k (mem_range.mp (hA hk))).2⟩
  unfold models
  refine sum_nbij' (fun A => A.image τ) (fun A => A.image ρ) ?_ ?_ ?_ ?_ ?_
  · exact fun A hA => mem_powerset.mpr (hsub τ ρ hτ A (mem_powerset.mp hA)).1
  · exact fun A hA => mem_powerset.mpr (hsub ρ τ hρ A (mem_powerset.mp hA)).1
  · exact fun A hA => (hsub τ ρ hτ A (mem_powerset.mp hA)).2
  · exact fun A hA => (hsub ρ τ hρ A (mem_powerset.mp hA)).2
  · exact fun A hA => by rw [h A (mem_powerset.mp hA)]

end BoolFun

open BoolFun

/-! ## Trees -/

namespace DTree

variable {t low high : DTree Bool} {M k : ℕ}

/-- The level of the root, or that of the leaves. -/
def rootLevel {L : Type*} (M : ℕ) (t : DTree L) : ℕ := t.root.getD M

/-- The count for the levels from the root's on, out of `M`. -/
def countBelow (M : ℕ) : DTree Bool → ℕ
  | leaf b => b.toNat
  | node level low high =>
    2 ^ (low.rootLevel M - level - 1) * low.countBelow M +
      2 ^ (high.rootLevel M - level - 1) * high.countBelow M

theorem rootLevel_gt (hs : (node k low high).Sorted M) :
    k < low.rootLevel M ∧ k < high.rootLevel M := by
  obtain ⟨hlt, hal, hah, -, -⟩ := hs
  constructor
  · cases low with
    | leaf b => exact hlt
    | node level _ _ => exact hal
  · cases high with
    | leaf b => exact hlt
    | node level _ _ => exact hah

theorem rootLevel_le (hs : t.Sorted M) : t.rootLevel M ≤ M := by
  cases t with
  | leaf b => exact Nat.le_refl M
  | node level _ _ => exact Nat.le_of_lt hs.1

theorem above_rootLevel (M : ℕ) (t : DTree Bool) : t.Above (t.rootLevel M) := by
  cases t with
  | leaf b => trivial
  | node level _ _ => exact Nat.le_refl level

/-- A tree does not look at the levels above its root. -/
theorem ignores_of_above (hs : t.Sorted M) (ha : t.Above (k + 1)) : Ignores t.eval k :=
  fun x b => eval_update hs ha x b

/-- The count, scaled by the levels above the root, is that of all assignments. -/
theorem countBelow_models (hs : t.Sorted M) :
    2 ^ t.rootLevel M * t.countBelow M = models (range M) t.eval := by
  induction t with
  | leaf b =>
    have h := models_const (range M) b
    rw [card_range] at h
    exact h.symm
  | node level low high ihl ihh =>
    obtain ⟨hltl, hlth⟩ := rootLevel_gt hs
    obtain ⟨hlt, hal, hah, hsl, hsh⟩ := hs
    -- the root's level apart from the others
    have hmem : level ∉ (range M).erase level := notMem_erase level _
    have hall : insert level ((range M).erase level) = range M :=
      insert_erase (mem_range.mpr hlt)
    have hdouble : ∀ u : DTree Bool, u.Sorted M → u.Above (level + 1) →
        models (range M) u.eval = 2 * models ((range M).erase level) u.eval := by
      intro u hu ha
      rw [← models_insert_of_ignores hmem (ignores_of_above hu ha), hall]
    have hnode : models (range M) (node level low high).eval =
        models ((range M).erase level) low.eval + models ((range M).erase level) high.eval := by
      rw [← hall, models_insert hmem, hall]
      congr 1
      · refine models_congr fun A _ => ?_
        rw [eval_node, Function.update_self]
        exact eval_update hsl hal _ false
      · refine models_congr fun A _ => ?_
        rw [eval_node, Function.update_self]
        exact eval_update hsh hah _ true
    have hscale : ∀ r c : ℕ, level < r → 2 * (2 ^ level * (2 ^ (r - level - 1) * c)) = 2 ^ r * c := by
      intro r c hr
      have hpow : 2 ^ r = 2 * (2 ^ level * 2 ^ (r - level - 1)) := by
        rw [← pow_add, ← pow_succ']
        congr 1
        omega
      rw [hpow]
      ring
    have hl := ihl hsl
    have hh := ihh hsh
    rw [hdouble low hsl hal, ← hscale _ _ hltl] at hl
    rw [hdouble high hsh hah, ← hscale _ _ hlth] at hh
    have hl' := Nat.eq_of_mul_eq_mul_left two_pos hl
    have hh' := Nat.eq_of_mul_eq_mul_left two_pos hh
    rw [hnode, ← hl', ← hh']
    show 2 ^ level * _ = _
    rw [countBelow, mul_add]

end DTree

end Decision
