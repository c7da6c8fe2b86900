import Mathlib.Algebra.Order.Ring.Unbundled.Rat
import Mathlib.Data.Rat.Sqrt
import MoToBuddy.Evdd.Op
import MoToBuddy.Evdd.ValueAlgebra

/-!
# Rational weights

A weight type with all callbacks registered whose payloads are the rationals. The general
results about weight types are tried out on it.
-/

namespace MoToBuddy.Evdd

/-- A callback on payloads, with `NULL` read as zero. -/
def ratBinary (f : ℚ → ℚ → ℚ) (a b : Option ℚ) : Option ℚ := some (f (a.getD 0) (b.getD 0))

/-- The callbacks of the type. -/
def ratFunctions (normalize : EvddNormalize ℚ) : EvddValueFunctions ℚ where
  hashfun := some fun u => UInt32.ofNat (u.num.natAbs + 31 * u.den)
  cellfun := none
  naxes := 0
  comparefun := some fun a b => a = b
  mulfun := some (ratBinary (· * ·))
  divfun := some (ratBinary (· / ·))
  addfun := some (ratBinary (· + ·))
  subfun := some (ratBinary (· - ·))
  iszerofun := some fun u => u = 0
  isonefun := some fun u => u = 1
  abscmpfun := some fun a b =>
    if |a.getD 0| < |b.getD 0| then -1 else if |b.getD 0| < |a.getD 0| then 1 else 0
  absqfun := some fun a => some (a.getD 0 * a.getD 0)
  sqrtfun := some fun a => some (Rat.sqrt (a.getD 0))
  normalizefun := some normalize

/-- One registered type, of rational weights. -/
def ratTypes (normalize : EvddNormalize ℚ) : ValueTypes ℚ := ⟨1, fun _ => ratFunctions normalize⟩

theorem ratTypes_lawfulCompare (normalize : EvddNormalize ℚ) (type : ℕ) :
    LawfulCompare (ratTypes normalize) type := by
  have hcmp : ∀ a b, compareOf (ratTypes normalize) type a b = true ↔ a = b := fun a b =>
    decide_eq_true_iff
  refine ⟨rfl, fun a => (hcmp a a).mpr rfl, fun a b h => ?_, fun a b c h h' => ?_,
    fun f hf a b h => ?_⟩
  · rw [hcmp] at h ⊢
    exact h.symm
  · rw [hcmp] at h h' ⊢
    exact h.trans h'
  · rw [hcmp] at h
    rw [h]

/-- A built-in strategy is no callback. -/
theorem ratTypes_lawfulNormalize : LawfulNormalize (ratTypes .firstNonzero) := by
  intro type f hf
  cases Option.some.inj hf

/-- Addition as an operation for `evdd_apply`, at address `1`. -/
def ratOps (normalize : EvddNormalize ℚ) : EvddApplyOps ℚ :=
  fun _ V a b => evddValueAdd (ratTypes normalize) V a b

theorem ratOps_lawful (normalize : EvddNormalize ℚ) (op : ℕ) :
    LawfulOp (ratTypes normalize) (ratOps normalize op) :=
  fun _ hV a b => evddValueAdd_algebraic hV a b

theorem ratOps_apart (normalize : EvddNormalize ℚ) : (ratOps normalize).Apart := fun _ _ _ => rfl

end MoToBuddy.Evdd
