import MoToBuddy.Prime.Search
import Mathlib.NumberTheory.LucasPrimality
import Mathlib.Tactic.ReduceModChar

/-!
# The sizes that the library searches primes for

* `Search.safe_iff`: for which arguments the two searches are safe.
* `Request`: the calls that search, with the argument that they compute (`kernel.c`, `bddop.c`,
  `cache.c`, `reorder.c`, `evdd_kernel.c`, `evdd_op.c`).
* `Request.safe_iff`: for which settings they are safe.
-/

namespace MoToBuddy.Prime

/-- A call of one of the two functions. -/
inductive Search
  | gte (src : ℕ)
  | lte (src : ℕ)
  deriving DecidableEq, Repr

def Search.src : Search → ℕ
  | .gte src => src
  | .lte src => src

/-- The search ends without a remainder by zero, on the right side of its argument, whatever `rand`
gives. -/
def Search.Safe (v : Builtin64) : Search → Prop
  | .gte src => ∀ rand, ∃ fuel r, bddPrimeGte v rand fuel src = some r ∧ src ≤ r
  | .lte src => ∀ rand, ∃ fuel r, bddPrimeLte v rand fuel src = some r ∧ r ≤ src

/-- There is an odd prime on the right side. -/
def Search.Fits : Search → Prop
  | .gte src => 2 ≤ src ∧ src ≤ 4294967291
  | .lte src => 3 ≤ src

instance : DecidablePred Search.Fits
  | .gte _ => inferInstanceAs (Decidable (_ ∧ _))
  | .lte _ => inferInstanceAs (Decidable (_ ≤ _))

/-! ## The largest prime of a word -/

theorem ne_one_of_natCast {p c : ℕ} {x : ZMod p} (hx : x = (c : ℕ)) (hc : c < p) (hp : 1 < p)
    (hone : c ≠ 1) : x ≠ 1 := by
  rw [hx, ← Nat.cast_one, ne_eq, ZMod.natCast_eq_natCast_iff', Nat.mod_eq_of_lt hc,
    Nat.mod_eq_of_lt hp]
  exact hone

theorem prime_uintMax : Nat.Prime 4294967291 := by
  refine lucas_primality _ 2 (by reduce_mod_char) fun q hq hdvd => ?_
  have hfactors : 4294967291 - 1 = 2 * 5 * 19 * 22605091 := by norm_num
  have hlast : Nat.Prime 22605091 := by norm_num
  rw [hfactors, hq.dvd_mul, hq.dvd_mul, hq.dvd_mul, Nat.prime_dvd_prime_iff_eq hq Nat.prime_two,
    Nat.prime_dvd_prime_iff_eq hq Nat.prime_five, Nat.prime_dvd_prime_iff_eq hq (by norm_num),
    Nat.prime_dvd_prime_iff_eq hq hlast] at hdvd
  rcases hdvd with ((rfl | rfl) | rfl) | rfl
  · exact ne_one_of_natCast (c := 4294967290) (by reduce_mod_char) (by norm_num) (by norm_num)
      (by norm_num)
  · exact ne_one_of_natCast (c := 149005400) (by reduce_mod_char) (by norm_num) (by norm_num)
      (by norm_num)
  · exact ne_one_of_natCast (c := 81549662) (by reduce_mod_char) (by norm_num) (by norm_num)
      (by norm_num)
  · exact ne_one_of_natCast (c := 1073745729) (by reduce_mod_char) (by norm_num) (by norm_num)
      (by norm_num)

/-! ## What the searches give -/

section Results

variable {v : Builtin64} {rand : ℕ → ℕ} {fuel t src r : ℕ}

/-- The test of one has no witness to choose. -/
theorem isPrime_one : isPrime v rand t 1 = none := rfl

theorem primeGteLoop_odd (h : primeGteLoop v rand fuel t src = some r) (hsrc : src % 2 = 1) :
    r % 2 = 1 ∧ r ≠ 1 := by
  induction fuel generalizing t src with
  | zero => simp [primeGteLoop] at h
  | succ fuel ih =>
    rw [primeGteLoop, Option.bind_eq_bind, Option.bind_eq_some_iff] at h
    obtain ⟨⟨yes, t'⟩, htest, h⟩ := h
    cases yes with
    | true =>
      obtain rfl : src = r := Option.some.inj h
      refine ⟨hsrc, ?_⟩
      rintro rfl
      simp [isPrime_one] at htest
    | false => exact ih h (by unfold word; omega)

theorem primeLteLoop_odd (h : primeLteLoop v rand fuel t src = some r) (hsrc : src % 2 = 1) :
    r % 2 = 1 ∧ r ≠ 1 := by
  induction fuel generalizing t src with
  | zero => simp [primeLteLoop] at h
  | succ fuel ih =>
    rw [primeLteLoop, Option.bind_eq_bind, Option.bind_eq_some_iff] at h
    obtain ⟨⟨yes, t'⟩, htest, h⟩ := h
    cases yes with
    | true =>
      obtain rfl : src = r := Option.some.inj h
      refine ⟨hsrc, ?_⟩
      rintro rfl
      simp [isPrime_one] at htest
    | false => exact ih h (by unfold minus word; omega)

/-- What a search gives is at least three. -/
theorem three_le_of_bddPrimeGte (h : bddPrimeGte v rand fuel src = some r) : 3 ≤ r := by
  have hodd : (if isEven src then (src + 1) % word else src) % 2 = 1 := by
    unfold isEven word
    split_ifs with heven <;> simp at heven <;> omega
  have hres := primeGteLoop_odd h hodd
  omega

theorem three_le_of_bddPrimeLte (h : bddPrimeLte v rand fuel src = some r) : 3 ≤ r := by
  have hodd : (if isEven src then minus src 1 else src) % 2 = 1 := by
    unfold isEven minus word
    split_ifs with heven <;> simp at heven <;> omega
  have hres := primeLteLoop_odd h hodd
  omega

theorem primeGteLoop_one : primeGteLoop v rand fuel t 1 = none := by
  cases fuel <;> rfl

/-- Behind the largest prime of a word the search comes to one. -/
theorem primeGteLoop_last : primeGteLoop .unsigned (fun _ => 1) fuel t 4294967295 = none := by
  cases fuel with
  | zero => rfl
  | succ fuel =>
    have htest : isPrime .unsigned (fun _ => 1) t 4294967295 = some (false, t) := by
      rw [isPrime, if_pos (by decide)]
    rw [primeGteLoop_step htest]
    exact primeGteLoop_one

theorem primeGteLoop_behind : primeGteLoop .unsigned (fun _ => 1) fuel t 4294967293 = none := by
  cases fuel with
  | zero => rfl
  | succ fuel =>
    have hwitness : isWitness .unsigned 2 4294967293 = some true := by decide
    have htest : isPrime .unsigned (fun _ => 1) t 4294967293 = some (false, t + 1) := by
      have heasy : hasEasyFactors 4294967293 = false := by decide
      have hrandom : random 1 (minus 4294967293 1) = some 2 := by decide
      rw [isPrime, heasy, if_neg Bool.false_ne_true, checktimes, isMillerRabinPrime, hrandom,
        Option.bind_eq_bind, Option.bind_some, hwitness]
      rfl
    rw [primeGteLoop_step htest]
    exact primeGteLoop_last

end Results

/-! ## Which arguments are safe -/

theorem Search.safe_of_fits {v : Builtin64} {s : Search} (hlimit : s.src < v.limit)
    (h : s.Fits) : s.Safe v := by
  have hword : v.limit ≤ word := by cases v <;> decide
  cases s with
  | gte src =>
    intro rand
    have hsrc : src < v.limit := hlimit
    by_cases hint : src < 2 ^ 31
    · have hle := v.le_limit
      obtain ⟨r, hrun, hge, -⟩ := bddPrimeGte_total (v := v) prime_intMax (by decide) (by omega)
        (by decide) h.1 (by omega) rand
      exact ⟨_, r, hrun, hge⟩
    · cases v with
      | unsigned =>
        obtain ⟨r, hrun, hge, -⟩ := bddPrimeGte_total (v := .unsigned) prime_uintMax (by decide)
          (by decide) (by decide) h.1 h.2 rand
        exact ⟨_, r, hrun, hge⟩
      | longLong => exact absurd hsrc hint
      | struct => exact absurd hsrc hint
  | lte src =>
    intro rand
    have hsrc : src < v.limit := hlimit
    obtain ⟨r, hrun, -, hle⟩ := bddPrimeLte_total (v := v) Nat.prime_three (by decide) hsrc.le
      (by omega) h rand
    exact ⟨_, r, hrun, hle⟩

/-- A search is safe if there is an odd prime on the right side of its argument. -/
theorem Search.safe_iff_fits {v : Builtin64} {s : Search} (hlimit : s.src < v.limit) :
    s.Safe v ↔ s.Fits := by
  refine ⟨fun hsafe => ?_, safe_of_fits hlimit⟩
  cases s with
  | gte src =>
    have hsrc : src < v.limit := hlimit
    obtain ⟨fuel, r, hrun, -⟩ := hsafe fun _ => 1
    by_contra hfits
    have hcases : src = 0 ∨ src = 1 ∨ 4294967291 < src := by
      unfold Fits at hfits
      omega
    rcases hcases with rfl | rfl | hlarge
    · exact absurd (hrun.symm.trans primeGteLoop_one) (by simp)
    · exact absurd (hrun.symm.trans primeGteLoop_one) (by simp)
    · cases v with
      | unsigned =>
        have hlt : src < 4294967296 := hsrc
        have hcases : src = 4294967292 ∨ src = 4294967293 ∨ src = 4294967294 ∨
          src = 4294967295 := by omega
        rcases hcases with rfl | rfl | rfl | rfl
        · exact absurd (hrun.symm.trans primeGteLoop_behind) (by simp)
        · exact absurd (hrun.symm.trans primeGteLoop_behind) (by simp)
        · exact absurd (hrun.symm.trans primeGteLoop_last) (by simp)
        · exact absurd (hrun.symm.trans primeGteLoop_last) (by simp)
      | longLong => exact absurd (hlarge.trans hsrc) (by decide)
      | struct => exact absurd (hlarge.trans hsrc) (by decide)
  | lte src =>
    obtain ⟨fuel, r, hrun, hle⟩ := hsafe fun _ => 1
    exact (three_le_of_bddPrimeLte hrun).trans hle

/-! ## The calls that search -/

/-- An `int` passed as `unsigned int`. -/
def toWord (n : ℤ) : ℕ := (n % 2 ^ 32).toNat

/-- The size that the growth of a table computes. -/
def grownSize (size maxsize maxincrease : ℤ) : ℤ :=
  let grown := size * 2
  let grown := if grown > size + maxincrease then size + maxincrease else grown
  if grown > maxsize ∧ maxsize > 0 then maxsize else grown

/-- The calls that search for a prime, with the settings that their argument depends on. -/
inductive Request
  /-- `bdd_init`, for the table of nodes. -/
  | bddInit (initnodesize : ℤ)
  /-- `BddCache_init`, for the size of the caches that `bdd_init` got. -/
  | bddCacheInit (cachesize : ℤ)
  /-- `bdd_setcacheratio`. -/
  | bddSetcacheratio (bddnodesize r : ℤ)
  /-- `bdd_operator_noderesize` and `mtbdd_operator_noderesize`, after the growth of the table. -/
  | bddOperatorNoderesize (bddnodesize cacheratio : ℤ)
  /-- `bdd_noderesize`. -/
  | bddNoderesize (bddnodesize bddmaxnodesize bddmaxnodeincrease : ℤ)
  /-- `reorder_setLevellookup`. -/
  | reorderSetLevellookup (bddnodesize bddvarnum : ℤ)
  /-- `evdd_init`. -/
  | evddInit (initnodesize : ℤ)
  /-- `evdd_operator_init` and `evdd_operator_resize`. -/
  | evddOperatorInit (cachesize : ℤ)
  /-- `evdd_noderesize`. -/
  | evddNoderesize (evddnodesize evddmaxnodesize : ℤ)
  deriving DecidableEq, Repr

/-- The search that the call makes. -/
def Request.search : Request → Option Search
  | .bddInit initnodesize => some (.gte (toWord initnodesize))
  | .bddCacheInit cachesize => some (.gte (toWord cachesize))
  | .bddSetcacheratio bddnodesize r =>
    if r ≤ 0 then none
    else if bddnodesize = 0 then none
    else some (.gte (toWord (bddnodesize.tdiv r)))
  | .bddOperatorNoderesize bddnodesize cacheratio =>
    if cacheratio > 0 then some (.gte (toWord (bddnodesize.tdiv cacheratio))) else none
  | .bddNoderesize bddnodesize bddmaxnodesize bddmaxnodeincrease =>
    if bddnodesize ≥ bddmaxnodesize ∧ bddmaxnodesize > 0 then none
    else some (.lte (toWord (grownSize bddnodesize bddmaxnodesize bddmaxnodeincrease)))
  | .reorderSetLevellookup bddnodesize bddvarnum =>
    let size := bddnodesize.tdiv bddvarnum
    if size ≥ 4 then some (.lte (toWord size)) else none
  | .evddInit initnodesize =>
    some (.gte (toWord (if initnodesize < 2 then 2 else initnodesize)))
  | .evddOperatorInit cachesize => some (.gte (toWord (if cachesize < 2 then 2 else cachesize)))
  | .evddNoderesize evddnodesize evddmaxnodesize =>
    if evddnodesize ≥ evddmaxnodesize ∧ evddmaxnodesize > 0 then none
    else some (.lte (toWord (grownSize evddnodesize evddmaxnodesize 50000)))

def IsInt (n : ℤ) : Prop := -2 ^ 31 ≤ n ∧ n < 2 ^ 31

/-- The table has a size that a search has given. -/
def TableSize (v : Builtin64) (size : ℤ) : Prop :=
  ∃ rand fuel src r, (bddPrimeGte v rand fuel src = some r ∨ bddPrimeLte v rand fuel src = some r) ∧
    size = r

/-- What the settings can be, as long as no size overflows. A negative size needs products that a
`long long` cannot hold. -/
def Request.Possible (v : Builtin64) : Request → Prop
  | .bddInit n => IsInt n ∧ toWord n < v.limit
  | .bddCacheInit n => IsInt n ∧ toWord n < v.limit
  | .bddSetcacheratio size r => IsInt size ∧ 0 ≤ size ∧ IsInt r
  | .bddOperatorNoderesize size ratio => IsInt size ∧ 0 ≤ size ∧ IsInt ratio
  | .bddNoderesize size maxsize maxincrease => TableSize v size ∧ IsInt maxsize ∧ 0 ≤ maxincrease ∧
    IsInt (size * 2) ∧ IsInt (size + maxincrease)
  | .reorderSetLevellookup size varnum => IsInt size ∧ 0 ≤ size ∧ IsInt varnum ∧ 0 < varnum
  | .evddInit n => IsInt n
  | .evddOperatorInit n => IsInt n
  | .evddNoderesize size maxsize => TableSize v size ∧ IsInt maxsize ∧ IsInt (size * 2) ∧
    IsInt (size + 50000)

/-- The settings for which a search is safe: sizes from two on, and a cache ratio that is at most
half of the table. -/
def Request.Holds : Request → Prop
  | .bddInit n => 2 ≤ n ∨ n ≤ -5
  | .bddCacheInit n => 2 ≤ n ∨ n ≤ -5
  | .bddSetcacheratio size r => r ≤ 0 ∨ size = 0 ∨ 2 * r ≤ size
  | .bddOperatorNoderesize size ratio => ratio ≤ 0 ∨ 2 * ratio ≤ size
  | _ => True

theorem toWord_of_nonneg {n : ℤ} (h0 : 0 ≤ n) (h : IsInt n) : (toWord n : ℤ) = n ∧
    toWord n < 2 ^ 31 := by
  have hlt := h.2
  unfold toWord
  rw [Int.emod_eq_of_lt h0 (by omega)]
  omega

theorem TableSize.three_le {v : Builtin64} {size : ℤ} (h : TableSize v size) : 3 ≤ size := by
  obtain ⟨rand, fuel, src, r, hrun, rfl⟩ := h
  rcases hrun with hrun | hrun
  · exact_mod_cast three_le_of_bddPrimeGte hrun
  · exact_mod_cast three_le_of_bddPrimeLte hrun

/-- Sizes of a cache or a table, negative ones included. -/
theorem safe_gte_iff {v : Builtin64} {n : ℤ} (h : IsInt n) (hlimit : toWord n < v.limit) :
    (Search.gte (toWord n)).Safe v ↔ 2 ≤ n ∨ n ≤ -5 := by
  rw [Search.safe_iff_fits (s := .gte (toWord n)) hlimit]
  unfold Search.Fits toWord
  have hlow := h.1
  have hhigh := h.2
  omega

theorem safe_gte_tdiv_iff {v : Builtin64} {size r : ℤ} (hsize : IsInt size) (h0 : 0 ≤ size)
    (hr : 0 < r) : (Search.gte (toWord (size.tdiv r))).Safe v ↔ 2 * r ≤ size := by
  have hquot : 0 ≤ size / r := Int.ediv_nonneg h0 hr.le
  have hle : size / r ≤ size := Int.ediv_le_self r h0
  have hint : IsInt (size / r) := ⟨by have := hsize.1; omega, by have := hsize.2; omega⟩
  obtain ⟨-, hword⟩ := toWord_of_nonneg hquot hint
  rw [Int.tdiv_eq_ediv_of_nonneg h0, safe_gte_iff hint (lt_of_lt_of_le hword v.le_limit),
    ← Int.le_ediv_iff_mul_le hr]
  omega

theorem safe_lte {v : Builtin64} {n : ℤ} (h : IsInt n) (h3 : 3 ≤ n) :
    (Search.lte (toWord n)).Safe v := by
  obtain ⟨hcast, hword⟩ := toWord_of_nonneg (by omega) h
  refine Search.safe_of_fits (lt_of_lt_of_le hword v.le_limit) ?_
  show 3 ≤ toWord n
  omega

/-- A table grows from its size on. -/
theorem grownSize_le {size maxsize maxincrease : ℤ}
    (hroom : ¬ (size ≥ maxsize ∧ maxsize > 0)) (hinc : 0 ≤ maxincrease) (h3 : 3 ≤ size) :
    size ≤ grownSize size maxsize maxincrease ∧ grownSize size maxsize maxincrease ≤ size * 2 := by
  unfold grownSize
  simp only
  split_ifs <;> omega

/-- For which settings the searches of a call are safe. -/
theorem Request.safe_iff (v : Builtin64) (q : Request) (h : q.Possible v) :
    (∀ s, q.search = some s → s.Safe v) ↔ q.Holds := by
  -- a search that is made
  have hmade : ∀ s : Search, q.search = some s → ((∀ s, q.search = some s → s.Safe v) ↔ s.Safe v) := by
    intro s hs
    rw [hs]
    exact ⟨fun hall => hall s rfl, fun hsafe s' hs' => Option.some.inj hs' ▸ hsafe⟩
  have hnone : q.search = none → ∀ s, q.search = some s → s.Safe v := by
    intro hs s hs'
    rw [hs] at hs'
    exact absurd hs' (by simp)
  cases q with
  | bddInit n =>
    rw [hmade _ rfl]
    exact safe_gte_iff h.1 h.2
  | bddCacheInit n =>
    rw [hmade _ rfl]
    exact safe_gte_iff h.1 h.2
  | bddSetcacheratio size r =>
    unfold Holds
    by_cases hr : r ≤ 0
    · exact ⟨fun _ => Or.inl hr, fun _ => hnone (if_pos hr)⟩
    by_cases hsize : size = 0
    · exact ⟨fun _ => Or.inr (Or.inl hsize),
        fun _ => hnone (by rw [search, if_neg hr, if_pos hsize])⟩
    rw [hmade _ (by rw [search, if_neg hr, if_neg hsize]),
      safe_gte_tdiv_iff h.1 h.2.1 (by omega)]
    omega
  | bddOperatorNoderesize size ratio =>
    unfold Holds
    by_cases hr : ratio > 0
    · rw [hmade _ (if_pos hr), safe_gte_tdiv_iff h.1 h.2.1 hr]
      omega
    · exact ⟨fun _ => Or.inl (by omega), fun _ => hnone (if_neg hr)⟩
  | bddNoderesize size maxsize maxincrease =>
    obtain ⟨htable, hmax, hinc, hdouble, hsum⟩ := h
    by_cases hroom : size ≥ maxsize ∧ maxsize > 0
    · exact ⟨fun _ => trivial, fun _ => hnone (if_pos hroom)⟩
    · obtain ⟨hge, hle⟩ := grownSize_le hroom hinc htable.three_le
      have h3 := htable.three_le
      have hlt := hdouble.2
      rw [hmade _ (if_neg hroom)]
      exact ⟨fun _ => trivial, fun _ => safe_lte ⟨by omega, by omega⟩ (by omega)⟩
  | reorderSetLevellookup size varnum =>
    obtain ⟨hsize, h0, hvar, hpos⟩ := h
    have hle : size.tdiv varnum ≤ size := by
      rw [Int.tdiv_eq_ediv_of_nonneg h0]
      exact Int.ediv_le_self varnum h0
    have hlt := hsize.2
    by_cases hfour : size.tdiv varnum ≥ 4
    · rw [hmade _ (if_pos hfour)]
      exact ⟨fun _ => trivial, fun _ => safe_lte ⟨by omega, by omega⟩ (by omega)⟩
    · exact ⟨fun _ => trivial, fun _ => hnone (if_neg hfour)⟩
  | evddInit n =>
    have hint : IsInt (if n < 2 then 2 else n) := by
      split_ifs
      · exact ⟨by norm_num, by norm_num⟩
      · exact h
    obtain ⟨-, hword⟩ := toWord_of_nonneg (by split_ifs <;> omega) hint
    rw [hmade _ rfl, safe_gte_iff hint (lt_of_lt_of_le hword v.le_limit)]
    exact ⟨fun _ => trivial, fun _ => Or.inl (by split_ifs <;> omega)⟩
  | evddOperatorInit n =>
    have hint : IsInt (if n < 2 then 2 else n) := by
      split_ifs
      · exact ⟨by norm_num, by norm_num⟩
      · exact h
    obtain ⟨-, hword⟩ := toWord_of_nonneg (by split_ifs <;> omega) hint
    rw [hmade _ rfl, safe_gte_iff hint (lt_of_lt_of_le hword v.le_limit)]
    exact ⟨fun _ => trivial, fun _ => Or.inl (by split_ifs <;> omega)⟩
  | evddNoderesize size maxsize =>
    obtain ⟨htable, hmax, hdouble, hsum⟩ := h
    by_cases hroom : size ≥ maxsize ∧ maxsize > 0
    · exact ⟨fun _ => trivial, fun _ => hnone (if_pos hroom)⟩
    · obtain ⟨hge, hle⟩ := grownSize_le hroom (show (0 : ℤ) ≤ 50000 by norm_num)
        htable.three_le
      have h3 := htable.three_le
      have hlt := hdouble.2
      rw [hmade _ (if_neg hroom)]
      exact ⟨fun _ => trivial, fun _ => safe_lte ⟨by omega, by omega⟩ (by omega)⟩

/-- A table of eleven nodes cannot be halved six times. -/
theorem Request.safe_iff_eleven :
    (∀ s, (Request.bddSetcacheratio 11 6).search = some s → s.Safe .longLong) ↔
      (Request.bddSetcacheratio 11 6).Holds :=
  safe_iff .longLong (.bddSetcacheratio 11 6)
    ⟨⟨by norm_num, by norm_num⟩, by norm_num, by norm_num, by norm_num⟩

/-- `bdd_setcacheratio(20)` for a table of eleven nodes. -/
theorem not_safe_setcacheratio :
    (Request.bddSetcacheratio 11 20).Possible .longLong ∧
      ¬ ∀ s, (Request.bddSetcacheratio 11 20).search = some s → s.Safe .longLong := by
  refine ⟨⟨⟨by norm_num, by norm_num⟩, by norm_num, by norm_num, by norm_num⟩, fun hall => ?_⟩
  obtain ⟨fuel, r, hrun, -⟩ := hall (.gte 0) (by decide) fun _ => 0
  exact absurd (hrun.symm.trans primeGteLoop_one) (by simp)

end MoToBuddy.Prime
