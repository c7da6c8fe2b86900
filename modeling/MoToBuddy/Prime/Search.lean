import MoToBuddy.Prime.Arith
import MoToBuddy.Lib.Powering
import Mathlib.NumberTheory.LucasLehmer
import Mathlib.Tactic.NormNum.Prime

/-!
# The prime search (`prime.c`)

The Miller-Rabin test and the two searches, for every sequence of numbers that `rand` may give.

* `isPrime_of_prime`: a prime is never rejected.
* `bddPrimeGte_total`, `bddPrimeLte_total`: a search ends at a prime at the latest.
-/

namespace MoToBuddy.Prime

open Powering

/-- `Random`, for what `rand` gives. Nothing is defined for a remainder by zero. -/
def random (outcome i : ℕ) : Option ℕ := if i = 0 then none else some (outcome % i + 1)

def isEven (src : ℕ) : Bool := src % 2 = 0

def hasFactor (src n : ℕ) : Bool := src ≠ n && src % n = 0

/-- `BitIsSet`. -/
def bitIsSet (src b : ℕ) : Bool := src.testBit b

def checktimes : ℕ := 20

/-- A difference of `unsigned int`. -/
def minus (a b : ℕ) : ℕ := (a + word - b) % word

/-- The loop of `numberOfBits`. -/
def numberOfBitsFrom (src : ℕ) : ℕ → ℕ
  | 0 => 1
  | b + 1 => if bitIsSet src (b + 1) then b + 2 else numberOfBitsFrom src b

def numberOfBits (src : ℕ) : ℕ := if src = 0 then 0 else numberOfBitsFrom src 31

variable (v : Builtin64)

/-- The loop of `isWitness`, for the bits below `n`. -/
def isWitnessLoop (witness src : ℕ) : ℕ → ℕ → Option Bool
  | 0, d => some (d ≠ 1)
  | i + 1, d => do
    let x := d
    let d ← u64Mulmod v d d src
    if d = 1 ∧ x ≠ 1 ∧ x ≠ minus src 1 then return true
    else
      let d ← if bitIsSet (minus src 1) i then u64Mulmod v d witness src else some d
      isWitnessLoop witness src i d

/-- `isWitness`; for `src = 1` the loop has no rounds. -/
def isWitness (witness src : ℕ) : Option Bool :=
  isWitnessLoop v witness src (numberOfBits (minus src 1)) 1

/-- `isMillerRabinPrime`, with `n` rounds left and after `t` calls of `rand`. -/
def isMillerRabinPrime (rand : ℕ → ℕ) (src : ℕ) : ℕ → ℕ → Option (Bool × ℕ)
  | 0, t => some (true, t)
  | n + 1, t => do
    let witness ← random (rand t) (minus src 1)
    if ← isWitness v witness src then return (false, t + 1)
    else isMillerRabinPrime rand src n (t + 1)

def hasEasyFactors (src : ℕ) : Bool :=
  hasFactor src 3 || hasFactor src 5 || hasFactor src 7 || hasFactor src 11 || hasFactor src 13

def isPrime (rand : ℕ → ℕ) (t src : ℕ) : Option (Bool × ℕ) :=
  if hasEasyFactors src then some (false, t) else isMillerRabinPrime v rand src checktimes t

/-- The loop of `bdd_prime_gte`. -/
def primeGteLoop (rand : ℕ → ℕ) : ℕ → ℕ → ℕ → Option ℕ
  | 0, _, _ => none
  | fuel + 1, t, src => do
    let (yes, t) ← isPrime v rand t src
    if yes then return src else primeGteLoop rand fuel t ((src + 2) % word)

/-- `bdd_prime_gte`. -/
def bddPrimeGte (rand : ℕ → ℕ) (fuel src : ℕ) : Option ℕ :=
  primeGteLoop v rand fuel 0 (if isEven src then (src + 1) % word else src)

/-- The loop of `bdd_prime_lte`. -/
def primeLteLoop (rand : ℕ → ℕ) : ℕ → ℕ → ℕ → Option ℕ
  | 0, _, _ => none
  | fuel + 1, t, src => do
    let (yes, t) ← isPrime v rand t src
    if yes then return src else primeLteLoop rand fuel t (minus src 2)

/-- `bdd_prime_lte`. -/
def bddPrimeLte (rand : ℕ → ℕ) (fuel src : ℕ) : Option ℕ :=
  primeLteLoop v rand fuel 0 (if isEven src then minus src 1 else src)

/-! ## The test -/

variable {v} {rand : ℕ → ℕ} {src witness b d i n t m fuel : ℕ}

theorem minus_eq {a b : ℕ} (hb : b ≤ a) (ha : a < word) : minus a b = a - b := by
  unfold minus
  rw [show a + word - b = a - b + word by omega, Nat.add_mod_right, Nat.mod_eq_of_lt (by omega)]

theorem lt_numberOfBitsFrom (h : src < 2 ^ (b + 1)) : src < 2 ^ numberOfBitsFrom src b := by
  induction b with
  | zero => exact h
  | succ b ih =>
    unfold numberOfBitsFrom
    by_cases hset : bitIsSet src (b + 1) = true
    · rw [if_pos hset]
      exact h
    · rw [if_neg hset]
      refine ih ?_
      unfold bitIsSet at hset
      by_contra hge
      exact hset (Nat.testBit_of_two_pow_le_and_two_pow_add_one_gt (not_lt.mp hge) h)

theorem lt_numberOfBits (h : src < word) : src < 2 ^ numberOfBits src := by
  unfold numberOfBits
  by_cases hzero : src = 0
  · rw [if_pos hzero, hzero]
    decide
  · rw [if_neg hzero]
    exact lt_numberOfBitsFrom h

/-- The loop of `isWitness` holds the power for the bits that it has seen. -/
theorem isWitnessLoop_prime (hp : src.Prime) (hlimit : src ≤ v.limit) (hsrc : src < word)
    (hw : 0 < witness) (hlt : witness < src)
    (hd : d = witness ^ ((src - 1) >>> n) % src) :
    isWitnessLoop v witness src n d = some false := by
  have hone : minus src 1 = src - 1 := minus_eq hp.one_lt.le hsrc
  induction n generalizing d with
  | zero =>
    rw [Nat.shiftRight_zero, pow_sub_one_mod_prime hp hw hlt] at hd
    simp [isWitnessLoop, hd]
  | succ n ih =>
    have hdlt : d < src := hd ▸ Nat.mod_lt _ hp.pos
    rw [isWitnessLoop, u64Mulmod_eq v hdlt hdlt hlimit]
    simp only [Option.bind_eq_bind, Option.bind_some, hone]
    rw [if_neg]
    · have hsq : d * d % src = witness ^ ((src - 1) >>> (n + 1)) *
          witness ^ ((src - 1) >>> (n + 1)) % src := by
        rw [hd, ← Nat.mul_mod]
      have hpow := pow_shiftRight witness (src - 1) n
      unfold bitIsSet
      by_cases hbit : (src - 1).testBit n = true
      · rw [if_pos hbit] at hpow ⊢
        rw [u64Mulmod_eq v (Nat.mod_lt _ hp.pos) hlt hlimit, Option.bind_some]
        refine ih ?_
        rw [hsq, hpow, Nat.mod_mul_mod]
      · rw [if_neg hbit] at hpow ⊢
        refine ih ?_
        rw [hsq, hpow, Nat.mul_one]
    · -- one has no other square roots
      intro hroot
      have hcases := sqrt_one_mod_prime hp hdlt hroot.1
      omega

theorem isWitness_prime (hp : src.Prime) (hlimit : src ≤ v.limit) (hsrc : src < word)
    (hw : 0 < witness) (hlt : witness < src) : isWitness v witness src = some false := by
  have hone : minus src 1 = src - 1 := minus_eq hp.one_lt.le hsrc
  refine isWitnessLoop_prime hp hlimit hsrc hw hlt ?_
  have hbits := lt_numberOfBits (show src - 1 < word by omega)
  rw [hone, Nat.shiftRight_eq_div_pow, Nat.div_eq_of_lt hbits, pow_zero,
    Nat.mod_eq_of_lt hp.one_lt]

theorem isMillerRabinPrime_prime (hp : src.Prime) (hlimit : src ≤ v.limit) (hsrc : src < word)
    (rand : ℕ → ℕ) (n t : ℕ) : isMillerRabinPrime v rand src n t = some (true, t + n) := by
  have hone : minus src 1 = src - 1 := minus_eq hp.one_lt.le hsrc
  have hgt := hp.one_lt
  induction n generalizing t with
  | zero => rfl
  | succ n ih =>
    have hrandom : random (rand t) (minus src 1) = some (rand t % (src - 1) + 1) := by
      rw [hone, random, if_neg (by omega)]
    have hmod := Nat.mod_lt (rand t) (show src - 1 > 0 by omega)
    have hwitness := isWitness_prime hp hlimit hsrc
      (show 0 < rand t % (src - 1) + 1 by omega) (by omega)
    rw [isMillerRabinPrime, hrandom, Option.bind_eq_bind, Option.bind_some, hwitness,
      Option.bind_eq_bind, Option.bind_some, if_neg Bool.false_ne_true, ih, Nat.add_right_comm,
      Nat.add_assoc]

theorem hasFactor_prime (hp : src.Prime) (hn : n ≠ 1) : hasFactor src n = false := by
  unfold hasFactor
  by_cases hdvd : n ∣ src
  · rcases hp.eq_one_or_self_of_dvd n hdvd with hone | hself
    · exact absurd hone hn
    · simp [hself]
  · simp [Nat.dvd_iff_mod_eq_zero.not.mp hdvd]

/-- A prime is never rejected. -/
theorem isPrime_of_prime (hp : src.Prime) (hlimit : src ≤ v.limit) (hsrc : src < word)
    (rand : ℕ → ℕ) (t : ℕ) : isPrime v rand t src = some (true, t + checktimes) := by
  have heasy : hasEasyFactors src = false := by
    simp [hasEasyFactors, hasFactor_prime hp]
  rw [isPrime, heasy]
  exact isMillerRabinPrime_prime hp hlimit hsrc rand checktimes t

/-! ## The test ends -/

theorem isWitnessLoop_total (hpos : 1 < src) (hlimit : src ≤ v.limit) (hlt : witness < src)
    (hd : d < src) : ∃ b, isWitnessLoop v witness src n d = some b := by
  induction n generalizing d with
  | zero => exact ⟨_, rfl⟩
  | succ n ih =>
    have hsq : d * d % src < src := Nat.mod_lt _ (by omega)
    rw [isWitnessLoop, u64Mulmod_eq v hd hd hlimit, Option.bind_eq_bind, Option.bind_some]
    split_ifs
    · exact ⟨true, rfl⟩
    · rw [u64Mulmod_eq v hsq hlt hlimit]
      exact ih (Nat.mod_lt _ (by omega))
    · exact ih hsq

theorem isMillerRabinPrime_total (hpos : 1 < src) (hlimit : src ≤ v.limit) (hsrc : src < word)
    (rand : ℕ → ℕ) (n t : ℕ) : ∃ res, isMillerRabinPrime v rand src n t = some res := by
  have hone : minus src 1 = src - 1 := minus_eq hpos.le hsrc
  induction n generalizing t with
  | zero => exact ⟨_, rfl⟩
  | succ n ih =>
    have hrandom : random (rand t) (minus src 1) = some (rand t % (src - 1) + 1) := by
      rw [hone, random, if_neg (by omega)]
    have hmod := Nat.mod_lt (rand t) (show src - 1 > 0 by omega)
    obtain ⟨b, hwitness⟩ := isWitnessLoop_total (n := numberOfBits (minus src 1)) hpos hlimit
      (show rand t % (src - 1) + 1 < src by omega) hpos
    rw [isMillerRabinPrime, hrandom, Option.bind_eq_bind, Option.bind_some, isWitness, hwitness,
      Option.bind_eq_bind, Option.bind_some]
    split_ifs
    · exact ⟨_, rfl⟩
    · exact ih (t + 1)

theorem isPrime_total (hpos : 1 < src) (hlimit : src ≤ v.limit) (hsrc : src < word)
    (rand : ℕ → ℕ) (t : ℕ) : ∃ b t', isPrime v rand t src = some (b, t') := by
  unfold isPrime
  split_ifs
  · exact ⟨_, _, rfl⟩
  · obtain ⟨res, hres⟩ := isMillerRabinPrime_total hpos hlimit hsrc rand checktimes t
    exact ⟨res.1, res.2, hres⟩

/-! ## The searches -/

variable {p : ℕ}

theorem primeGteLoop_step {yes : Bool} (htest : isPrime v rand t src = some (yes, m)) :
    primeGteLoop v rand (fuel + 1) t src =
      if yes then some src else primeGteLoop v rand fuel m ((src + 2) % word) := by
  rw [primeGteLoop, htest]
  rfl

theorem primeLteLoop_step {yes : Bool} (htest : isPrime v rand t src = some (yes, m)) :
    primeLteLoop v rand (fuel + 1) t src =
      if yes then some src else primeLteLoop v rand fuel m (minus src 2) := by
  rw [primeLteLoop, htest]
  rfl

/-- The search upwards ends at a prime at the latest. -/
theorem primeGteLoop_total (hp : p.Prime) (hlimit : p ≤ v.limit) (hword : p < word)
    (hpos : 1 < src) (hle : src ≤ p) (hsame : src % 2 = p % 2) (hfuel : p < src + 2 * fuel)
    (rand : ℕ → ℕ) (t : ℕ) :
    ∃ r, primeGteLoop v rand fuel t src = some r ∧ src ≤ r ∧ r ≤ p := by
  induction fuel generalizing src t with
  | zero => omega
  | succ fuel ih =>
    obtain ⟨yes, t', htest⟩ := isPrime_total hpos (hle.trans hlimit) (by omega) rand t
    rw [primeGteLoop_step htest]
    cases yes with
    | true => exact ⟨src, rfl, le_rfl, hle⟩
    | false =>
      -- a prime would not have been rejected
      have hne : src ≠ p := by
        rintro rfl
        rw [isPrime_of_prime hp hlimit hword rand t] at htest
        simp at htest
      have hnext : (src + 2) % word = src + 2 := Nat.mod_eq_of_lt (by omega)
      obtain ⟨r, hrun, hge, hler⟩ := ih (show 1 < src + 2 by omega) (by omega) (by omega)
        (by omega) t'
      refine ⟨r, ?_, by omega, hler⟩
      rw [if_neg Bool.false_ne_true, hnext]
      exact hrun

/-- The search downwards ends at a prime at the latest. -/
theorem primeLteLoop_total (hp : p.Prime) (hlimit : src ≤ v.limit) (hword : src < word)
    (hle : p ≤ src) (hsame : src % 2 = p % 2) (hfuel : src < p + 2 * fuel)
    (rand : ℕ → ℕ) (t : ℕ) :
    ∃ r, primeLteLoop v rand fuel t src = some r ∧ p ≤ r ∧ r ≤ src := by
  have htwo := hp.two_le
  induction fuel generalizing src t with
  | zero => omega
  | succ fuel ih =>
    obtain ⟨yes, t', htest⟩ := isPrime_total (by omega) hlimit hword rand t
    rw [primeLteLoop_step htest]
    cases yes with
    | true => exact ⟨src, rfl, hle, le_rfl⟩
    | false =>
      have hne : src ≠ p := by
        rintro rfl
        rw [isPrime_of_prime hp hlimit hword rand t] at htest
        simp at htest
      have hnext : minus src 2 = src - 2 := minus_eq (by omega) hword
      obtain ⟨r, hrun, hge, hler⟩ := ih (show src - 2 ≤ v.limit by omega) (by omega) (by omega)
        (by omega) (by omega) t'
      refine ⟨r, ?_, hge, by omega⟩
      rw [if_neg Bool.false_ne_true, hnext]
      exact hrun

theorem bddPrimeGte_total (hp : p.Prime) (hodd : p ≠ 2) (hlimit : p ≤ v.limit) (hword : p < word)
    (hpos : 2 ≤ src) (hle : src ≤ p) (rand : ℕ → ℕ) :
    ∃ r, bddPrimeGte v rand p src = some r ∧ src ≤ r ∧ r ≤ p := by
  have hmod := hp.mod_two_eq_one_iff_ne_two.mpr hodd
  unfold bddPrimeGte isEven
  by_cases heven : src % 2 = 0
  · rw [if_pos (by simpa using heven), Nat.mod_eq_of_lt (by omega)]
    obtain ⟨r, hrun, hge, hler⟩ := primeGteLoop_total hp hlimit hword
      (show 1 < src + 1 by omega) (by omega) (by omega) (show p < src + 1 + 2 * p by omega) rand 0
    exact ⟨r, hrun, by omega, hler⟩
  · rw [if_neg (by simpa using heven)]
    exact primeGteLoop_total hp hlimit hword (by omega) hle (by omega) (by omega) rand 0

theorem bddPrimeLte_total (hp : p.Prime) (hodd : p ≠ 2) (hlimit : src ≤ v.limit)
    (hword : src < word) (hle : p ≤ src) (rand : ℕ → ℕ) :
    ∃ r, bddPrimeLte v rand src src = some r ∧ p ≤ r ∧ r ≤ src := by
  have hmod := hp.mod_two_eq_one_iff_ne_two.mpr hodd
  have htwo := hp.two_le
  unfold bddPrimeLte isEven
  by_cases heven : src % 2 = 0
  · rw [if_pos (by simpa using heven), minus_eq (by omega) hword]
    obtain ⟨r, hrun, hge, hler⟩ := primeLteLoop_total hp
      (show src - 1 ≤ v.limit by omega) (by omega) (by omega) (by omega)
      (show src - 1 < p + 2 * src by omega) rand 0
    exact ⟨r, hrun, hge, by omega⟩
  · rw [if_neg (by simpa using heven)]
    exact primeLteLoop_total hp hlimit hword hle (by omega) (by omega) rand 0

/-! ## Sizes of `int` -/

theorem Builtin64.le_limit (v : Builtin64) : 2 ^ 31 ≤ v.limit := by
  cases v <;> decide

/-- The largest `int` is a prime. -/
theorem prime_intMax : Nat.Prime 2147483647 := by
  have hmersenne := lucas_lehmer_sufficiency 31 (by norm_num) (by norm_num)
  simpa [mersenne] using hmersenne

/-- The test accepts every odd prime below `2 ^ 31`, whatever `rand` gives, and so both searches end
where the next prime is, or before. -/
theorem primes_accepted (v : Builtin64) :
    (∀ p, p.Prime → p % 2 = 1 → p < 2 ^ 31 → ∀ rand t,
      isPrime v rand t p = some (true, t + checktimes)) ∧
    ∀ n, 3 ≤ n → n < 2 ^ 31 → ∀ rand,
      (∃ fuel r, bddPrimeGte v rand fuel n = some r ∧ n ≤ r ∧ ∀ p, p.Prime → n ≤ p → r ≤ p) ∧
      ∃ fuel r, bddPrimeLte v rand fuel n = some r ∧ r ≤ n ∧ ∀ p, p.Prime → p ≤ n → p ≤ r := by
  have hlimit := v.le_limit
  have hword : 2 ^ 31 < word := by decide
  refine ⟨fun p hp _ hlt rand t => isPrime_of_prime hp (by omega) (by omega) rand t,
    fun n hn hlt rand => ⟨?_, ?_⟩⟩
  · -- the search ends at the least of the primes from `n` on
    have hex : ∃ p, p.Prime ∧ n ≤ p := ⟨2147483647, prime_intMax, by omega⟩
    obtain ⟨hp, hle⟩ := Nat.find_spec hex
    have hmax : Nat.find hex ≤ 2147483647 := Nat.find_min' hex ⟨prime_intMax, by omega⟩
    obtain ⟨r, hrun, hge, hler⟩ := bddPrimeGte_total (v := v) hp (by omega) (by omega) (by omega)
      (show 2 ≤ n by omega) hle rand
    exact ⟨_, r, hrun, hge, fun q hq hnq => hler.trans (Nat.find_min' hex ⟨hq, hnq⟩)⟩
  · have hthree : 3 ≤ Nat.findGreatest Nat.Prime n := Nat.le_findGreatest hn Nat.prime_three
    have hp : (Nat.findGreatest Nat.Prime n).Prime := Nat.findGreatest_spec hn Nat.prime_three
    obtain ⟨r, hrun, hge, hler⟩ := bddPrimeLte_total (v := v) hp (by omega) (by omega) (by omega)
      (Nat.findGreatest_le n) rand
    exact ⟨_, r, hrun, hler, fun q hq hqn => (Nat.le_findGreatest hqn hq).trans hge⟩

theorem primes_accepted_seven :
    isPrime .longLong (fun _ => 1) 0 7 = some (true, checktimes) ∧
      ∃ fuel r, bddPrimeGte .longLong (fun _ => 1) fuel 8 = some r ∧ 8 ≤ r ∧ r ≤ 11 := by
  have haccepted := primes_accepted .longLong
  obtain ⟨fuel, r, hrun, hge, hle⟩ := (haccepted.2 8 (by decide) (by decide) fun _ => 1).1
  exact ⟨by simpa using haccepted.1 7 (by norm_num) (by decide) (by decide) (fun _ => 1) 0,
    fuel, r, hrun, hge, hle 11 (by norm_num) (by decide)⟩

end MoToBuddy.Prime
