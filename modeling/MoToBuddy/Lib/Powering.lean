import Mathlib.Data.Nat.Prime.Basic
import Mathlib.FieldTheory.Finite.Basic

/-!
# Powers by squaring, from the highest bit of the exponent

* `pow_shiftRight`: one bit of the exponent, as a square and perhaps a product.
* `sqrt_one_mod_prime`, `pow_sub_one_mod_prime`: what such a computation meets modulo a prime.
-/

namespace Powering

/-- One more bit of the exponent. -/
theorem pow_shiftRight {M : Type*} [Monoid M] (a : M) (n i : ℕ) :
    a ^ (n >>> i) = a ^ (n >>> (i + 1)) * a ^ (n >>> (i + 1)) * if n.testBit i then a else 1 := by
  have hbit : n >>> i = n >>> (i + 1) + n >>> (i + 1) + if n.testBit i then 1 else 0 := by
    rw [Nat.shiftRight_succ, Nat.testBit_eq_decide_div_mod_eq, ← Nat.shiftRight_eq_div_pow]
    simp only [decide_eq_true_eq]
    split_ifs <;> omega
  rw [← pow_add]
  by_cases hb : n.testBit i = true
  · rw [if_pos hb] at hbit ⊢
    rw [hbit, pow_succ]
  · rw [if_neg hb] at hbit ⊢
    rw [hbit, add_zero, mul_one]

/-- Modulo a prime, one has two square roots. -/
theorem sqrt_one_mod_prime {p x : ℕ} (hp : p.Prime) (hx : x < p) (hsq : x * x % p = 1) :
    x = 1 ∨ x = p - 1 := by
  have hpos : 1 ≤ x := by
    by_contra hzero
    obtain rfl : x = 0 := by omega
    simp at hsq
  have hdvd : p ∣ (x - 1) * (x + 1) := by
    have hfactor : (x - 1) * (x + 1) = x * x - 1 := by
      obtain ⟨y, rfl⟩ : ∃ y, x = y + 1 := ⟨x - 1, by omega⟩
      rw [Nat.add_sub_cancel]
      have hexpand : (y + 1) * (y + 1) = y * (y + 1 + 1) + 1 := by ring
      omega
    rw [hfactor]
    exact (Nat.modEq_iff_dvd' (Nat.mul_pos hpos hpos)).mp
      (by rw [Nat.ModEq, hsq, Nat.mod_eq_of_lt hp.one_lt])
  rcases hp.dvd_mul.mp hdvd with hminus | hplus
  · have hzero := Nat.eq_zero_of_dvd_of_lt hminus (by omega)
    omega
  · have hle := Nat.le_of_dvd (by omega) hplus
    omega

/-- Fermat's little theorem. -/
theorem pow_sub_one_mod_prime {p a : ℕ} (hp : p.Prime) (ha : 0 < a) (hlt : a < p) :
    a ^ (p - 1) % p = 1 := by
  have hcop : Nat.Coprime a p := (Nat.coprime_of_lt_prime (by omega) hlt hp).symm
  have hmod := Nat.ModEq.pow_totient hcop
  rw [Nat.totient_prime hp] at hmod
  exact Eq.trans hmod (Nat.mod_eq_of_lt hp.one_lt)

end Powering
