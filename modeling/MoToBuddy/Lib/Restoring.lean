import Mathlib.Algebra.Order.Ring.Nat
import Mathlib.Tactic.Linarith
import Mathlib.Tactic.Ring

/-!
# Division by shift and subtract

A restoring division of `v` by `d` finds the quotient's bits from the top. Either the divisor moves
down below the dividend, or the remainder moves up: then it takes in one bit of the dividend before
each comparison, and the quotient register holds the bits of the dividend that are still to come
above the bits of the quotient found so far.
-/

namespace Restoring

variable {n d v k : ℕ}

/-- One place of long division. -/
theorem div_mod_double (hd : 0 < d) (a b : ℕ) (hb : b < 2) :
    (2 * a + b) / d = 2 * (a / d) + (if d ≤ 2 * (a % d) + b then 1 else 0) ∧
      (2 * a + b) % d = 2 * (a % d) + b - (if d ≤ 2 * (a % d) + b then d else 0) := by
  have hr := Nat.mod_lt a hd
  have ha := Nat.div_add_mod a d
  rw [Nat.div_mod_unique hd]
  split
  · constructor
    · have : d * (2 * (a / d) + 1) = 2 * (d * (a / d)) + d := by ring
      omega
    · omega
  · constructor
    · have : d * (2 * (a / d) + 0) = 2 * (d * (a / d)) := by ring
      omega
    · omega

/-! ## With the divisor moved -/

/-- The divisor `k` places below the top, and twice as much. -/
theorem place_eq (hk : k ≤ n) (d : ℕ) :
    d * 2 ^ n / 2 ^ k = d * 2 ^ (n - k) ∧ 2 * d * 2 ^ n / 2 ^ k = 2 * (d * 2 ^ (n - k)) ∧
      2 * d * 2 ^ n / 2 ^ (k + 1) = d * 2 ^ (n - k) := by
  have hpow : 2 ^ n = 2 ^ (n - k) * 2 ^ k := by rw [← pow_add, Nat.sub_add_cancel hk]
  have hpos : 0 < 2 ^ k := by positivity
  refine ⟨?_, ?_, ?_⟩
  · rw [hpow, ← mul_assoc, Nat.mul_div_cancel _ hpos]
  · rw [hpow, ← mul_assoc, Nat.mul_div_cancel _ hpos, mul_assoc]
  · rw [hpow, show 2 * d * (2 ^ (n - k) * 2 ^ k) = d * 2 ^ (n - k) * 2 ^ (k + 1) by
      rw [pow_succ]; ring, Nat.mul_div_cancel _ (by positivity)]

/-- One place of the quotient, for the moved divisor `m`. -/
theorem place_step {m : ℕ} (hm : 0 < m) (v : ℕ) :
    v / m = 2 * (v / (2 * m)) + (if m ≤ v % (2 * m) then 1 else 0) ∧
      v % m = v % (2 * m) - (if m ≤ v % (2 * m) then m else 0) := by
  have hr := Nat.mod_lt v (show 0 < 2 * m by omega)
  have hv := Nat.div_add_mod v (2 * m)
  rw [Nat.div_mod_unique hm]
  split
  · have : m * (2 * (v / (2 * m)) + 1) = 2 * m * (v / (2 * m)) + m := by ring
    omega
  · have : m * (2 * (v / (2 * m)) + 0) = 2 * m * (v / (2 * m)) := by ring
    omega

/-! ## With the remainder moved -/

/-- The registers after `k` steps. -/
structure Registers (n d v k R Q : ℕ) : Prop where
  remainder : R = (2 * (v / 2 ^ (n - k) % d) + 2 * v / 2 ^ (n - k) % 2) % 2 ^ n
  quotient : Q = (2 ^ (k + 1) * v + v / 2 ^ (n - k) / d) % 2 ^ n

/-- The top bit of the quotient register is the next bit of the dividend. -/
theorem topBit (hk : k < n) {q : ℕ} (hq : q < 2 ^ k) :
    (2 ^ (k + 1) * v + q) % 2 ^ n / 2 ^ (n - 1) = 2 * v / 2 ^ (n - (k + 1)) % 2 := by
  obtain ⟨m, rfl⟩ : ∃ m, n = k + 1 + m := ⟨n - (k + 1), by omega⟩
  have hlow : (2 ^ (k + 1) * v + q) % 2 ^ (k + 1 + m) = 2 ^ (k + 1) * (v % 2 ^ m) + q := by
    have hq' : q < 2 ^ (k + 1) := by rw [pow_succ]; omega
    rw [pow_add 2 (k + 1) m, Nat.mod_mul, Nat.mul_add_mod, Nat.mod_eq_of_lt hq',
      Nat.mul_add_div (by positivity), Nat.div_eq_of_lt hq', Nat.add_comm]
    simp
  have hv := Nat.div_add_mod v (2 ^ m)
  have hb := Nat.mod_lt v (show 0 < 2 ^ m by positivity)
  calc (2 ^ (k + 1) * v + q) % 2 ^ (k + 1 + m) / 2 ^ (k + 1 + m - 1)
      = (2 ^ k * (2 * (v % 2 ^ m)) + q) / 2 ^ k / 2 ^ m := by
        rw [hlow, show k + 1 + m - 1 = k + m by omega, pow_add 2 k m, Nat.div_div_eq_div_mul]
        ring_nf
    _ = 2 * (v % 2 ^ m) / 2 ^ m := by
        rw [Nat.mul_add_div (by positivity), Nat.div_eq_of_lt hq, Nat.add_zero]
    _ = 2 * v / 2 ^ m % 2 := by
        have hdouble : 2 * v = 2 ^ m * (2 * (v / 2 ^ m)) + 2 * (v % 2 ^ m) := by
          conv_lhs => rw [← hv]
          ring
        have hsmall : 2 * (v % 2 ^ m) / 2 ^ m < 2 := Nat.div_lt_of_lt_mul (by omega)
        rw [hdouble, Nat.mul_add_div (by positivity), Nat.mul_add_mod, Nat.mod_eq_of_lt hsmall]
    _ = 2 * v / 2 ^ (k + 1 + m - (k + 1)) % 2 := by rw [show k + 1 + m - (k + 1) = m by omega]

theorem registers_zero (hn : 0 < n) (hv : v < 2 ^ n) :
    Registers n d v 0 (v / 2 ^ (n - 1)) (2 * v % 2 ^ n) := by
  obtain ⟨m, rfl⟩ : ∃ m, n = m + 1 := ⟨n - 1, by omega⟩
  have hbit : v / 2 ^ m < 2 := Nat.div_lt_of_lt_mul (by rwa [pow_succ] at hv)
  have hpow : 2 ≤ 2 ^ (m + 1) := by rw [pow_succ]; have := Nat.two_pow_pos m; omega
  have hnext : 2 * v / 2 ^ (m + 1) = v / 2 ^ m := by
    rw [pow_succ, mul_comm 2 v, Nat.mul_div_mul_right _ _ (by norm_num)]
  constructor
  · simp only [Nat.sub_zero, Nat.div_eq_of_lt hv, Nat.zero_mod, hnext, Nat.add_sub_cancel,
      Nat.mod_eq_of_lt hbit, Nat.mul_zero, Nat.zero_add]
    exact (Nat.mod_eq_of_lt (by omega)).symm
  · simp [Nat.div_eq_of_lt hv]

/-- The dividend's next bit joins those compared so far. -/
theorem next_eq (hk : k < n) :
    2 * (v / 2 ^ (n - k)) + 2 * v / 2 ^ (n - k) % 2 = v / 2 ^ (n - (k + 1)) := by
  obtain ⟨m, hm⟩ : ∃ m, n - k = m + 1 := ⟨n - k - 1, by omega⟩
  have hnext : 2 * v / 2 ^ (m + 1) = v / 2 ^ m := by
    rw [pow_succ, mul_comm 2 v, Nat.mul_div_mul_right _ _ (by norm_num)]
  rw [hm, hnext, show n - (k + 1) = m by omega, pow_succ, ← Nat.div_div_eq_div_mul]
  exact Nat.div_add_mod (v / 2 ^ m) 2

/-- One step: compare, subtract, shift both registers. -/
theorem Registers.step {R Q : ℕ} (hd : 0 < d) (hv : v < 2 ^ n) (hk : k < n)
    (h : Registers n d v k R Q) :
    Registers n d v (k + 1) ((2 * (R - (if d ≤ R then d else 0)) + Q / 2 ^ (n - 1)) % 2 ^ n)
      ((2 * Q + (if d ≤ R then 1 else 0)) % 2 ^ n) := by
  have hpre (j : ℕ) (hj : j ≤ n) : v / 2 ^ (n - j) < 2 ^ j :=
    Nat.div_lt_of_lt_mul (by rwa [← pow_add, Nat.sub_add_cancel hj])
  have hnext := next_eq (v := v) hk
  have hq : v / 2 ^ (n - k) / d < 2 ^ k := (Nat.div_le_self _ d).trans_lt (hpre k hk.le)
  -- the remainder register does not overflow before the last step
  have hR : R = 2 * (v / 2 ^ (n - k) % d) + 2 * v / 2 ^ (n - k) % 2 := by
    have hle := Nat.mod_le (v / 2 ^ (n - k)) d
    have hlt := hpre (k + 1) hk
    have hpow : 2 ^ (k + 1) ≤ 2 ^ n := Nat.pow_le_pow_right (by norm_num) hk
    rw [h.remainder, Nat.mod_eq_of_lt (by omega)]
  obtain ⟨hdiv, hmod⟩ := div_mod_double hd (v / 2 ^ (n - k)) (2 * v / 2 ^ (n - k) % 2)
    (Nat.mod_lt _ (by norm_num))
  rw [hnext, ← hR] at hdiv hmod
  constructor
  · rw [hmod, h.quotient, topBit hk hq]
  · rw [hdiv, h.quotient, Nat.add_mod, Nat.mul_mod, Nat.mod_mod, ← Nat.mul_mod, ← Nat.add_mod,
      pow_succ 2 (k + 1)]
    congr 1
    ring

/-- After `n` steps the registers hold the quotient and twice the remainder, which loses its top
bit. -/
theorem Registers.final {R Q : ℕ} (hn : 0 < n) (hv : v < 2 ^ n) (h : Registers n d v n R Q) :
    Q = v / d ∧ R / 2 = v % d % 2 ^ (n - 1) := by
  have hq : v / d < 2 ^ n := (Nat.div_le_self v d).trans_lt hv
  obtain ⟨m, rfl⟩ : ∃ m, n = m + 1 := ⟨n - 1, by omega⟩
  constructor
  · rw [h.quotient, Nat.sub_self, pow_zero, Nat.div_one, pow_succ, mul_assoc, Nat.mul_add_mod,
      Nat.mod_eq_of_lt hq]
  · rw [h.remainder, Nat.sub_self, pow_zero, Nat.div_one, Nat.div_one, Nat.mul_mod_right,
      Nat.add_zero, pow_succ, mul_comm (2 ^ m) 2, Nat.mul_mod_mul_left,
      Nat.mul_div_cancel_left _ (by norm_num), Nat.add_sub_cancel]

end Restoring
