import Mathlib.Data.Nat.ModEq
import Mathlib.Tactic.Common
import Mathlib.Tactic.Ring

/-!
# 64 bit arithmetic (`prime.c`)

`u64_mulmod` for the types that `UINT64` can be. Where there is no type of 64 bits, `u64_mul` and
`u64_mod` compute with pairs of words.

* `u64Mulmod_eq`: all of them compute the product modulo the third argument, up to a limit on that.
-/

namespace MoToBuddy.Prime

/-- The pair of words that stands in for 64 bits. -/
structure UINT64 where
  hi : ℕ
  lo : ℕ
  deriving DecidableEq, Repr

/-- The words of `unsigned int`. -/
def word : ℕ := 2 ^ 32

def getcarry (a b : ℕ) : ℕ := if (a + b) % word < max a b then 1 else 0

/-- `res += y`, with the carry between the words. -/
def u64Add (res y : UINT64) : UINT64 where
  hi := (res.hi + (y.hi + getcarry res.lo y.lo)) % word
  lo := (res.lo + y.lo) % word

/-- `y << 1`. -/
def u64Double (y : UINT64) : UINT64 where
  hi := (y.hi * 2 % word) ||| (if y.lo.testBit 31 then 1 else 0)
  lo := y.lo * 2 % word

/-- The loop of `u64_mul`, with `n` rounds left. -/
def u64MulLoop : ℕ → UINT64 → UINT64 → ℕ → UINT64
  | 0, res, _, _ => res
  | n + 1, res, y, x =>
    u64MulLoop n (if x % 2 = 1 then u64Add res y else res) (u64Double y) (x / 2)

def u64Mul (x y : ℕ) : UINT64 := u64MulLoop 32 ⟨0, 0⟩ ⟨0, y⟩ x

/-- `u64_shl`: the number shifted, and the word that takes what is shifted out. -/
def u64Shl (a : UINT64) (carryOut : ℕ) : UINT64 × ℕ :=
  (u64Double a, (carryOut * 2 % word) ||| (if a.hi.testBit 31 then 1 else 0))

/-- The loop of `u64_mod`, with `n` rounds left. -/
def u64ModLoop (divisor : ℕ) : ℕ → UINT64 × ℕ → ℕ
  | 0, s => s.2
  | n + 1, s =>
    let remainder := if s.2 ≥ divisor then s.2 - divisor else s.2
    u64ModLoop divisor n (u64Shl s.1 remainder)

def u64Mod (dividend : UINT64) (divisor : ℕ) : ℕ := u64ModLoop divisor 64 (u64Shl dividend 0) / 2

/-- What `UINT64` is: an unsigned type of 64 bits, the `long long` that GNU compilers get, or the
pair of words. -/
inductive Builtin64
  | unsigned | longLong | struct
  deriving DecidableEq, Repr

/-- `u64_mulmod`. Nothing is defined for a division by zero, nor for a product that a `long long`
cannot hold. -/
def u64Mulmod (v : Builtin64) (a b c : ℕ) : Option ℕ :=
  match v with
  | .unsigned => if c = 0 then none else some (a * b % c)
  | .longLong => if c = 0 ∨ 2 ^ 63 ≤ a * b then none else some (a * b % c)
  | .struct => some (u64Mod (u64Mul a b) c)

/-- The moduli up to which nothing overflows. -/
def Builtin64.limit : Builtin64 → ℕ
  | .unsigned => 2 ^ 32
  | .longLong => 2 ^ 31
  | .struct => 2 ^ 31

/-! ## The pair of words -/

/-- The number that the pair stands for. -/
def UINT64.toNat (a : UINT64) : ℕ := a.hi * word + a.lo

structure UINT64.Ok (a : UINT64) : Prop where
  hi : a.hi < word
  lo : a.lo < word

/-- A bit shifted in at the end. -/
theorem shift_or (n : ℕ) (b : Bool) : (n * 2 % word) ||| (if b then 1 else 0) =
    n * 2 % word + if b then 1 else 0 := by
  have heven : n * 2 % word = 2 * (n * 2 % word / 2) := by
    unfold word
    omega
  rw [heven]
  cases b with
  | false => simp
  | true =>
    have hor := Nat.two_pow_add_eq_or_of_lt (i := 1) (b := 1) (by decide) (n * 2 % word / 2)
    rw [pow_one] at hor
    exact hor.symm

theorem testBit_top {n : ℕ} (hn : n < word) :
    (if n.testBit 31 then 1 else 0) = n * 2 / word := by
  rw [Nat.testBit_eq_decide_div_mod_eq]
  unfold word at hn ⊢
  simp only [decide_eq_true_eq]
  split_ifs <;> omega

variable {a res y : UINT64} {x n c r : ℕ}

/-- Doubling loses the bit at the top. -/
theorem u64Double_spec (ha : a.Ok) :
    (u64Double a).Ok ∧ (u64Double a).toNat = 2 * a.toNat % word ^ 2 := by
  have hhi := ha.hi
  have hlo := ha.lo
  unfold u64Double UINT64.toNat
  simp only [shift_or]
  rw [testBit_top hlo]
  unfold word at *
  refine ⟨⟨?_, Nat.mod_lt _ (by decide)⟩, ?_⟩
  · show a.hi * 2 % 2 ^ 32 + a.lo * 2 / 2 ^ 32 < 2 ^ 32
    omega
  · omega

/-- It goes into the other word. -/
theorem u64Shl_carry (ha : a.Ok) : (u64Shl a r).2 = r * 2 % word + 2 * a.toNat / word ^ 2 := by
  have hhi := ha.hi
  have hlo := ha.lo
  unfold u64Shl UINT64.toNat
  simp only [shift_or]
  rw [testBit_top hhi]
  unfold word at *
  omega

theorem getcarry_eq {a b : ℕ} (ha : a < word) (hb : b < word) : getcarry a b = (a + b) / word := by
  unfold getcarry word at *
  split_ifs <;> omega

theorem u64Add_spec (hres : res.Ok) (hy : y.Ok) (hfit : res.toNat + y.toNat < word ^ 2) :
    (u64Add res y).Ok ∧ (u64Add res y).toNat = res.toNat + y.toNat := by
  have hlo := hres.lo
  have hlo' := hy.lo
  unfold u64Add
  rw [getcarry_eq hlo hlo']
  unfold UINT64.toNat word at *
  refine ⟨⟨Nat.mod_lt _ (by decide), Nat.mod_lt _ (by decide)⟩, ?_⟩
  show (res.hi + (y.hi + (res.lo + y.lo) / 2 ^ 32)) % 2 ^ 32 * 2 ^ 32 + (res.lo + y.lo) % 2 ^ 32 = _
  omega

/-- The loop of `u64_mul`: what is left of `x` times the shifted `y` is still to be added. -/
theorem u64MulLoop_spec (hres : res.Ok) (hy : y.Ok) (hx : x < 2 ^ n)
    (hfit : res.toNat + x * y.toNat < word ^ 2) :
    (u64MulLoop n res y x).Ok ∧ (u64MulLoop n res y x).toNat = res.toNat + x * y.toNat := by
  induction n generalizing res y x with
  | zero =>
    obtain rfl : x = 0 := by omega
    exact ⟨hres, by simp [u64MulLoop]⟩
  | succ n ih =>
    obtain ⟨hshift, hdouble⟩ := u64Double_spec hy
    rw [pow_succ] at hx
    -- the shifted `y` is used only if it fits
    have hrest : x / 2 * (u64Double y).toNat = x / 2 * (2 * y.toNat) := by
      by_cases hhalf : x / 2 = 0
      · rw [hhalf, Nat.zero_mul, Nat.zero_mul]
      · have htwo : 2 * y.toNat ≤ x * y.toNat := Nat.mul_le_mul_right _ (by omega)
        rw [hdouble, Nat.mod_eq_of_lt (by omega)]
    have hsplit : x * y.toNat = x / 2 * (2 * y.toNat) + x % 2 * y.toNat := by
      rw [← Nat.mul_assoc, ← Nat.add_mul]
      congr 1
      omega
    rw [u64MulLoop]
    by_cases hodd : x % 2 = 1
    · rw [hodd, Nat.one_mul] at hsplit
      obtain ⟨hsum, hadd⟩ := u64Add_spec hres hy (by omega)
      have hloop := ih (x := x / 2) hsum hshift (by omega) (by rw [hadd, hrest]; omega)
      rw [hadd, hrest] at hloop
      rw [if_pos hodd]
      exact ⟨hloop.1, by omega⟩
    · rw [show x % 2 = 0 by omega, Nat.zero_mul] at hsplit
      have hloop := ih (x := x / 2) hres hshift (by omega) (by rw [hrest]; omega)
      rw [hrest] at hloop
      rw [if_neg hodd]
      exact ⟨hloop.1, by omega⟩

theorem u64Mul_spec {x y : ℕ} (hx : x < word) (hy : y < word) :
    (u64Mul x y).Ok ∧ (u64Mul x y).toNat = x * y := by
  have hprod : x * y < word ^ 2 := by
    rw [pow_two]
    exact Nat.mul_lt_mul'' hx hy
  have hzero : UINT64.Ok ⟨0, 0⟩ := ⟨by decide, by decide⟩
  have hy' : UINT64.Ok ⟨0, y⟩ := ⟨Nat.two_pow_pos 32, hy⟩
  have hloop := u64MulLoop_spec hzero hy' (show x < 2 ^ 32 from hx)
    (by simpa [UINT64.toNat] using hprod)
  simp only [UINT64.toNat, Nat.zero_mul, Nat.zero_add] at hloop ⊢
  exact hloop

/-- The bit that is shifted out when `n` are left. -/
theorem next_bit {N n : ℕ} (hn : n ≤ 64) :
    2 * (N * 2 ^ (64 - n) % word ^ 2) / word ^ 2 = 2 * N / 2 ^ n % 2 := by
  have hword : word ^ 2 = 2 ^ n * 2 ^ (64 - n) := by
    rw [← pow_add, Nat.add_sub_cancel' hn]
    rfl
  have hpos : 0 < 2 ^ n := Nat.two_pow_pos n
  have hlt := Nat.mod_lt N hpos
  have hsplit : 2 * N = 2 * (N % 2 ^ n) + 2 ^ n * (2 * (N / 2 ^ n)) := by
    have hdiv := Nat.mod_add_div N (2 ^ n)
    calc 2 * N = 2 * (N % 2 ^ n + 2 ^ n * (N / 2 ^ n)) := by rw [hdiv]
      _ = 2 * (N % 2 ^ n) + 2 ^ n * (2 * (N / 2 ^ n)) := by ring
  have hsmall : 2 * (N % 2 ^ n) / 2 ^ n < 2 := (Nat.div_lt_iff_lt_mul hpos).mpr (by omega)
  rw [hword, Nat.mul_mod_mul_right, ← Nat.mul_assoc,
    Nat.mul_div_mul_right _ _ (Nat.two_pow_pos _), hsplit, Nat.add_mul_div_left _ _ hpos,
    Nat.add_mul_mod_self_left, Nat.mod_eq_of_lt hsmall]

/-- The loop of `u64_mod`, with `n` bits left: the other word holds the remainder of the bits before
them, and the next bit behind that. -/
theorem u64ModLoop_spec {N : ℕ} (hc : 0 < c) (hlimit : c ≤ 2 ^ 31) (hn : n ≤ 64) (ha : a.Ok)
    (hbits : a.toNat = N * 2 ^ (65 - n) % word ^ 2)
    (hr : r = 2 * (N / 2 ^ n % c) + 2 * N / 2 ^ n % 2) : u64ModLoop c n (a, r) / 2 = N % c := by
  induction n generalizing a r with
  | zero =>
    rw [u64ModLoop, hr, pow_zero, Nat.div_one, Nat.div_one]
    omega
  | succ n ih =>
    obtain ⟨hok, hdouble⟩ := u64Double_spec ha
    have hlt := Nat.mod_lt (N / 2 ^ (n + 1)) hc
    have hhalf : N / 2 ^ (n + 1) = N / 2 ^ n / 2 := by rw [pow_succ, Nat.div_div_eq_div_mul]
    have hbit : 2 * N / 2 ^ (n + 1) = N / 2 ^ n := by
      rw [pow_succ', Nat.mul_div_mul_left _ _ Nat.two_pos]
    have hrem : (if r ≥ c then r - c else r) = N / 2 ^ n % c := by
      have hmod : N / 2 ^ n % c = r % c := by
        calc N / 2 ^ n % c = (2 * (N / 2 ^ (n + 1)) + 2 * N / 2 ^ (n + 1) % 2) % c := by
              congr 1
              omega
          _ = r % c := by
              rw [hr]
              exact ((Nat.mod_modEq _ c).symm.mul_left 2).add_right _
      rw [hmod]
      split_ifs with hge
      · rw [Nat.mod_eq_sub_mod hge, Nat.mod_eq_of_lt (by omega)]
      · rw [Nat.mod_eq_of_lt (by omega)]
    rw [u64ModLoop]
    simp only
    rw [hrem]
    refine ih (by omega) hok ?_ ?_
    · rw [hdouble, hbits, Nat.mul_mod_mod, show 65 - n = 65 - (n + 1) + 1 by omega, pow_succ]
      congr 1
      ring
    · have hcarry := u64Shl_carry (r := N / 2 ^ n % c) ha
      have hlt' := Nat.mod_lt (N / 2 ^ n) hc
      rw [hbits, show 65 - (n + 1) = 64 - n by omega, next_bit (by omega)] at hcarry
      refine hcarry.trans ?_
      rw [Nat.mod_eq_of_lt (by unfold word; omega), Nat.mul_comm]

theorem u64Mod_spec (ha : a.Ok) (hc : 0 < c) (hlimit : c ≤ 2 ^ 31) :
    u64Mod a c = a.toNat % c := by
  have hlt : a.toNat < word ^ 2 := by
    have hhi := ha.hi
    have hlo := ha.lo
    unfold UINT64.toNat word at *
    omega
  obtain ⟨hok, hdouble⟩ := u64Double_spec ha
  refine u64ModLoop_spec hc hlimit le_rfl hok (by rw [hdouble, pow_one, Nat.mul_comm]) ?_
  have hcarry := u64Shl_carry (r := 0) ha
  refine hcarry.trans ?_
  have hnone : a.toNat / 2 ^ 64 = 0 := Nat.div_eq_of_lt hlt
  have hone : 2 * a.toNat / word ^ 2 < 2 := (Nat.div_lt_iff_lt_mul (by decide)).mpr (by omega)
  rw [hnone, Nat.zero_mod, Nat.zero_mod, Nat.mul_zero]
  exact congrArg (0 + ·) (Nat.mod_eq_of_lt hone).symm

/-- Up to the limit nothing overflows, and the product is computed. -/
theorem u64Mulmod_eq (v : Builtin64) {a b c : ℕ} (ha : a < c) (hb : b < c) (hc : c ≤ v.limit) :
    u64Mulmod v a b c = some (a * b % c) := by
  have hprod : a * b < c * c := Nat.mul_lt_mul'' ha hb
  cases v with
  | unsigned => exact if_neg (by omega)
  | longLong =>
    have hsquare : c * c ≤ 2 ^ 31 * 2 ^ 31 := Nat.mul_le_mul hc hc
    exact if_neg (by omega)
  | struct =>
    have hword : c < word := lt_of_le_of_lt hc (by decide)
    obtain ⟨hok, hval⟩ := u64Mul_spec (ha.trans hword) (hb.trans hword)
    rw [u64Mulmod, u64Mod_spec hok (by omega) hc, hval]

end MoToBuddy.Prime
