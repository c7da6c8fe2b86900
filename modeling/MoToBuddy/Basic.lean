import Mathlib.Algebra.Group.Nat.Defs

/-!
# Hash macros and error codes shared by the kernels

The `HASH_*` macros of `kernel.h`, which `evdd_kernel.h` repeats: words are packed,
multiplied by fixed odd constants and folded, and `HASHRANGE` maps the result onto a table
of `n` slots without a division.
-/

namespace MoToBuddy

/-- The codes passed to `bdd_error`. -/
inductive BddError
  | memory | var | range | running | illbdd | op | nodenum | varblk | nodes | size | break | decvnum
  | replace | bvecSize | bvecShift | bvecDivzero
  deriving DecidableEq, Repr

/-! ## `HASH_*` -/

def hashK0 : UInt64 := 0xC13FA9A99E3779B9
def hashK1 : UInt64 := 0x91E10DA5C79E7B1D
def hashK2 : UInt64 := 0xC2B2AE3D27D4EB4F

/-- `HASH_W2`: two words in one. -/
def hashW2 (a b : UInt32) : UInt64 := (a.toUInt64 <<< 32) ||| b.toUInt64

/-- `HASH_FOLD`: the high half xor the low half. -/
def hashFold (x : UInt64) : UInt32 := ((x ^^^ (x <<< 32)) >>> 32).toUInt32

/-- `HASH1`. -/
def hash1 (a : UInt32) : UInt32 := a * hashK0.toUInt32

/-- `HASH2`. -/
def hash2 (a b : UInt32) : UInt32 := hashFold (hashW2 a b * hashK0)

/-- `HASH3`. -/
def hash3 (a b c : UInt32) : UInt32 :=
  hashFold (hashW2 a b * hashK0 + c.toUInt64 * hashK1)

/-- `HASH4`. -/
def hash4 (a b c d : UInt32) : UInt32 :=
  hashFold (hashW2 a b * hashK0 + hashW2 c d * hashK2)

/-- `HASH5`. -/
def hash5 (a b c d e : UInt32) : UInt32 :=
  hashFold (hashW2 a b * hashK0 + c.toUInt64 * hashK1 + hashW2 d e * hashK2)

/-- `HASHNODE`: the level is xored in before the multiplication. -/
def hashnode (lvl l h : UInt32) : UInt32 :=
  (((hashW2 l h ^^^ lvl.toUInt64 * hashK1) * hashK0) >>> 32).toUInt32

/-- `HASHRANGE`: the high half of the product of hash and table size. -/
def hashrange (h : UInt32) (n : ℕ) : ℕ := h.toNat * n / 2 ^ 32

/-- A hash lands inside the table. -/
theorem hashrange_lt (h : UInt32) {n : ℕ} (hn : 0 < n) : hashrange h n < n := by
  have hlt : h.toNat < 2 ^ 32 := h.toNat_lt
  rw [hashrange, Nat.div_lt_iff_lt_mul (by decide), Nat.mul_comm n]
  exact Nat.mul_lt_mul_of_pos_right hlt hn

/-! ## `prime.c` -/

/-- The search of `bdd_prime_lte` from an odd number downwards. -/
def primeDown (isPrime : ℕ → Bool) : ℕ → ℕ
  | n + 2 => if isPrime (n + 2) then n + 2 else primeDown isPrime n
  | n => n

/-- The search does not pass an odd number that the test accepts. -/
theorem primeDown_spec {isPrime : ℕ → Bool} {m : ℕ} (hm : 2 ≤ m) (hodd : m % 2 = 1)
    (hprime : isPrime m = true) :
    ∀ n, m ≤ n → n % 2 = 1 → m ≤ primeDown isPrime n ∧ primeDown isPrime n % 2 = 1 ∧
      isPrime (primeDown isPrime n) = true
  | 0, hle, _ => absurd hle (by omega)
  | 1, hle, _ => absurd hle (by omega)
  | n + 2, hle, hn => by
    unfold primeDown
    by_cases hp : isPrime (n + 2) = true
    · rw [if_pos hp]
      exact ⟨hle, hn, hp⟩
    · rw [if_neg hp]
      have hne : m ≠ n + 2 := fun he => hp (he ▸ hprime)
      exact primeDown_spec hm hodd hprime n (by omega) (by omega)

/-- The search goes down. -/
theorem primeDown_le (isPrime : ℕ → Bool) : ∀ n, primeDown isPrime n ≤ n
  | 0 => Nat.le_refl 0
  | 1 => Nat.le_refl 1
  | n + 2 => by
    unfold primeDown
    split
    · exact Nat.le_refl _
    · exact Nat.le_trans (primeDown_le isPrime n) (Nat.le_add_right n 2)

/-- `bdd_prime_lte`. -/
def bddPrimeLte (isPrime : ℕ → Bool) (src : ℕ) : ℕ :=
  primeDown isPrime (if src % 2 = 0 then src - 1 else src)

theorem bddPrimeLte_spec {isPrime : ℕ → Bool} {m n : ℕ} (hm : 2 ≤ m) (hodd : m % 2 = 1)
    (hprime : isPrime m = true) (hle : m ≤ n) :
    m ≤ bddPrimeLte isPrime n ∧ bddPrimeLte isPrime n % 2 = 1 ∧
      isPrime (bddPrimeLte isPrime n) = true := by
  unfold bddPrimeLte
  apply primeDown_spec hm hodd hprime
  · split <;> omega
  · split <;> omega

theorem bddPrimeLte_le (isPrime : ℕ → Bool) (src : ℕ) : bddPrimeLte isPrime src ≤ src := by
  unfold bddPrimeLte
  split
  · exact Nat.le_trans (primeDown_le isPrime _) (Nat.sub_le src 1)
  · exact primeDown_le isPrime src

/-- Primality by trial division, to run sessions with. -/
def trialDivision (n : ℕ) : Bool := 2 ≤ n && (List.range n).all fun d => d < 2 || n % d ≠ 0

end MoToBuddy
