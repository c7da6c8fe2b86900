import Mathlib.Data.Nat.Size
import MoToBuddy.Bvec.Rules

/-!
# `bvec_mulfixed`

The product with a constant takes the bits of the constant, which is shifted as an `int`: a negative
one never gets to zero. At each level the vector moved up by one place is built without references
but freed, so that the references of the operand's bits are given up. `mulfixedExact_iff` is about
operands that have enough of them.
-/

namespace MoToBuddy.Bvec

open Bdd BoolFun Exiting Package

variable {P : Type} {D : MtbddDomain P} {isPrime : ℕ → Bool}

/-- `bvec_mulfixed`, for the number of nested calls. -/
def bvecMulfixed (D : MtbddDomain P) (isPrime : ℕ → Bool) :
    ℕ → List ℕ → ℤ → Prog (BddState P) (List ℕ)
  | 0, _, _ => .stuck
  | calls + 1, e, c => do
    if e.length = 0 then return []
    else if c = 0 then return bvecBuild e.length false
    else
      -- the bits of `e` have no references in `next`
      let next := 0 :: e.dropLast
      let rest ← bvecMulfixed D isPrime calls next (c >>> (1 : ℕ))
      if c % 2 = 1 then
        let res ← bvecAdd D isPrime e rest
        bvecFree rest
        bvecFree next
        return res
      else
        bvecFree next
        return rest

/-- The vector of a nested call. -/
def next (E : Heap) : Heap := (0, Bits.zero) :: E.dropLast

/-- What is freed in the call for a constant of `b` bits. -/
def dropped : ℕ → Heap → Heap
  | 0, _ => []
  | b + 1, E => next E ++ dropped b (next E)

theorem nodes_next (E : Heap) : nodes (next E) = 0 :: (nodes E).dropLast := by
  simp [next]

theorem bits_next (E : Heap) : bits (next E) = Bits.double Bits.zero (bits E) := by
  simp [next, Bits.double]

theorem length_next {E : Heap} (hE : 0 < E.length) : (next E).length = E.length := by
  simp [next]
  omega

theorem next_sub (E : Heap) : next E ⊆ (0, Bits.zero) :: E := fun p hp => by
  rcases List.mem_cons.mp hp with rfl | hp
  · exact List.mem_cons_self ..
  · exact .tail _ (List.dropLast_subset E hp)

/-- Nothing else is freed than what is freed at the first level. -/
theorem dropped_sub (b : ℕ) (E : Heap) : dropped b E ⊆ next E := by
  induction b generalizing E with
  | zero => exact List.nil_subset _
  | succ b ih =>
    refine List.append_subset.mpr ⟨List.Subset.refl _, fun p hp => ?_⟩
    rcases List.mem_cons.mp (next_sub (next E) (ih (next E) hp)) with rfl | hp
    · exact List.mem_cons_self ..
    · exact hp

section

variable {T : Theory P} {reset : BddState P → Prop} {w : Package P} {K : ℕ → ℕ}
  {B H E : Heap} {s : BddState P}

/-- A negative constant is never shifted to zero. -/
theorem mulfixed_stuck {c : ℤ} (hc : c < 0) (calls : ℕ) {e : List ℕ} (he : 0 < e.length)
    (s : BddState P) : (bvecMulfixed D isPrime calls e c).exec s = none := by
  induction calls generalizing e c s with
  | zero => rfl
  | succ calls ih =>
    have hshift : c >>> (1 : ℕ) < 0 := by
      rw [Int.shiftRight_eq_div_pow]
      omega
    unfold bvecMulfixed
    rw [if_neg (by omega), if_neg (by omega)]
    exact Prog.exec_bind_stuck (ih hshift (by simp) s) _

theorem size_half {n : ℕ} (hn : n ≠ 0) : n.size = (n / 2).size + 1 := by
  have hbit := Nat.size_bit (b := n.bodd) (n := n.div2) (by rwa [Nat.bit_bodd_div2])
  rwa [Nat.bit_bodd_div2, Nat.div2_val] at hbit

theorem shiftRight_one_natCast (n : ℕ) : (n : ℤ) >>> (1 : ℕ) = (n / 2 : ℕ) := by
  rw [Int.shiftRight_eq_div_pow]
  omega

/-- More nested calls than the bits of the constant are not made. -/
theorem mulfixed_calls {n calls : ℕ} (hcalls : n.size < calls) (e : List ℕ) :
    bvecMulfixed D isPrime (calls + 1) e n = bvecMulfixed D isPrime calls e n := by
  induction calls generalizing n e with
  | zero => omega
  | succ calls ih =>
    rw [bvecMulfixed, bvecMulfixed]
    by_cases hn : n = 0
    · subst hn
      simp only [Nat.cast_zero, ↓reduceIte]
    · have hsize := size_half hn
      dsimp only
      rw [shiftRight_one_natCast, ih (by omega)]

/-- The value of the vector above the lowest bit of the constant. -/
theorem mulfixed_value {e : List ((ℕ → Bool) → Bool)} (he : 0 < e.length) (n : ℕ)
    {V : List ((ℕ → Bool) → Bool)} (hV : ∀ x, Bits.value V x =
      Bits.value (Bits.double Bits.zero e) x * (n / 2) % 2 ^ e.length) (x : ℕ → Bool) :
    (Bits.value e x * (n % 2) + Bits.value V x) % 2 ^ e.length =
      Bits.value e x * n % 2 ^ e.length := by
  rw [hV, Bits.value_double he, Bits.zero_apply, Bool.toNat_false, Nat.add_zero, Nat.mod_mul_mod,
    Nat.add_mod_mod]
  congr 1
  conv_rhs => rw [← Nat.mod_add_div n 2]
  ring

/-- A constant that is not negative is shifted to zero, and every bit adds its multiple. -/
theorem mulfixed_runs (hT : T.Operates) (hK : Frame w K B) (n : ℕ) {calls : ℕ}
    (hcalls : n.size < calls) (hpos : 0 < E.length) (hE : E ⊆ next E ++ H ++ B)
    (h : Holds T reset w K B (dropped n.size E ++ H) s) :
    Runs Spent (bvecMulfixed T.D T.isPrime calls (nodes E) n) s fun res s' =>
      ∃ V, V.length = E.length ∧
        (∀ x, Bits.value V x = Bits.value (bits E) x * n % 2 ^ E.length) ∧
        Makes T reset w K B H V res s' := by
  induction calls generalizing n E H s with
  | zero => omega
  | succ calls ih =>
    unfold bvecMulfixed
    rw [nodes_length, if_neg (by omega)]
    by_cases hn : n = 0
    · subst hn
      rw [if_pos Nat.cast_zero]
      obtain ⟨X, hX, hV, h⟩ := h.build E.length false
      refine .pure ⟨_, List.length_replicate, fun x => ?_, X, hX, hV, h⟩
      rw [Nat.mul_zero, Nat.zero_mod]
      exact Bits.value_zeros E.length x
    · rw [if_neg (by omega)]
      dsimp only
      have hsize := size_half hn
      have hlen := length_next hpos
      rw [shiftRight_one_natCast, ← nodes_next]
      rw [hsize, dropped, List.append_assoc] at h
      have hperm := List.perm_append_comm_assoc (next E) (dropped (n / 2).size (next E)) H
      have hsub : next E ⊆ next (next E) ++ (next E ++ H) ++ B := fun p hp => by simp [hp]
      refine (ih (n / 2) (by omega) (by omega) hsub (h.perm hperm)).bind fun rest s h => ?_
      obtain ⟨V, hVlen, hval, X, rfl, rfl, h⟩ := h
      rw [bits_length, hlen] at hVlen
      rw [hlen, bits_next] at hval
      have hvalue := mulfixed_value (e := bits E) (by simpa using hpos) n (V := bits X)
        (by simpa using hval)
      rw [bits_length] at hvalue
      by_cases hodd : n % 2 = 1
      · rw [if_pos (by omega)]
        have hlenX : E.length = X.length := hVlen.symm
        refine (add_runs hT hK hpos hlenX (sub_append hE X) (fun p hp => by simp [hp]) h).bind
          fun res s h => ?_
        obtain ⟨Y, rfl, hY, h⟩ := h
        refine delrefs_then hK Y h fun s h _ => ?_
        refine delrefs_then hK Y h fun s h _ => .pure ⟨bits Y, ?_, fun x => ?_, Y, rfl, rfl, h⟩
        · rw [hY, Bits.length_add (by simpa using hlenX), bits_length]
        · rw [hY, Bits.value_add (by simpa using hlenX), bits_length, ← hvalue, hodd, Nat.mul_one]
      · rw [if_neg (by omega)]
        refine delrefs_then hK X h fun s h _ => .pure ⟨bits X, by simpa using hVlen, fun x => ?_, X,
          rfl, rfl, h⟩
        have hlt := Bits.value_lt (bits X) x
        rw [bits_length, hVlen] at hlt
        rw [← hvalue, show n % 2 = 0 by omega, Nat.mul_zero, Nat.zero_add, Nat.mod_eq_of_lt hlt]

end

/-! ## When it is exact -/

section

variable {reset : BddState P → Prop} {w : Package P} {E : Heap}

/-- The recursion ends, and what it returns is the product. -/
def MulfixedExact (D : MtbddDomain P) (isPrime : ℕ → Bool) (reset : BddState P → Prop)
    (w : Package P) (E : Heap) (c : ℤ) : Prop :=
  ∃ calls, Runs Spent (bvecMulfixed D isPrime calls (nodes E) c) w.bdd
    (Yields D isPrime reset w E.length fun x => Bits.value (bits E) x * c % 2 ^ E.length)

/-- The references that are given up are there. -/
def Spared (w : Package P) (E : Heap) (c : ℤ) : Prop :=
  w.bdd.Covers (nodes (dropped c.toNat.size E) ++ w.entries)

theorem mulfixed_negative {c : ℤ} (hc : c < 0) (hpos : 0 < E.length) :
    ¬ MulfixedExact D isPrime reset w E c := by
  rintro ⟨calls, o, s', hrun, -⟩
  rw [mulfixed_stuck hc calls (by simpa using hpos)] at hrun
  exact absurd hrun nofun

/-- With enough references to the bits of the operand, the product with a constant is exact if and
only if the constant is not negative. -/
theorem mulfixedExact_iff (hw : w.Reached D isPrime reset) (hE : Operand D w.bdd E)
    (hpos : 0 < E.length) (c : ℤ) (hspared : Spared w E c) :
    MulfixedExact D isPrime reset w E c ↔ 0 ≤ c := by
  refine ⟨fun h => not_lt.mp fun hc => mulfixed_negative hc hpos h, fun hc => ?_⟩
  obtain ⟨n, rfl⟩ := Int.eq_ofNat_of_zero_le hc
  unfold Spared at hspared
  rw [Int.toNat_natCast] at hspared
  have hconst : w.bdd.Represents D 0 Bits.zero := ⟨_, .const false, trivial, fun _ => rfl⟩
  have hO : ∀ p ∈ dropped n.size E, w.bdd.Represents D p.1 p.2 := fun p hp => by
    rcases List.mem_cons.mp (next_sub E (dropped_sub _ _ hp)) with rfl | hp
    · exact hconst
    · exact (hE p hp).1
  obtain ⟨σ, M, B, hK, hsub, h⟩ := exists_holds hw hO hspared hE
  have hE' : E ⊆ next E ++ [] ++ B := fun p hp => by
    have hp' := List.mem_append.mp (hsub hp)
    rw [List.append_nil]
    exact hp'.elim (fun h => List.mem_append_left B (dropped_sub _ _ h))
      (List.mem_append_right _)
  rw [← List.append_nil (dropped n.size E)] at h hK
  refine ⟨n.size + 1, (mulfixed_runs (full_operates D isPrime σ M) hK n (Nat.lt_succ_self _) hpos
    hE' h).mono fun res s h => ?_⟩
  obtain ⟨V, hlen, hval, h⟩ := h
  exact h.yields hlen fun x => by rw [hval]; push_cast; rfl

end

/-- Three times the vector of the two variables. -/
theorem mulfixedExact_two :
    MulfixedExact intDomain trialDivision (fun _ => True) Package.twoVariables twoBits 3 :=
  (mulfixedExact_iff (twoVariables_reached _) twoBits_operand (by decide) 3
    (twoVariables_covers (by decide))).mpr (by decide)

theorem conjunction_mulfixed : ∀ calls < 5,
    ∀ o ∈ (bvecMulfixed intDomain trialDivision calls [6, 6, 6] 4).exec conjunction,
      o.1 = none ∧ o.2.bdderrorcond = false := by
  decide +kernel

/-- Minus one never gets to zero, and three bits that share one reference lose it twice in the
product with four. -/
theorem mulfixed_inexact :
    ¬ MulfixedExact intDomain trialDivision (fun _ => True) Package.twoVariables [(1, Bits.one)]
      (-1) ∧
    ¬ MulfixedExact intDomain trialDivision (fun _ => True) ⟨conjunction, [], 0⟩
      [(6, fun a => a 0 && a 1), (6, fun a => a 0 && a 1), (6, fun a => a 0 && a 1)] 4 := by
  refine ⟨mulfixed_negative (by decide) (by decide), fun ⟨calls, hrun⟩ => ?_⟩
  have hexec : ∃ m < 5, bvecMulfixed intDomain trialDivision calls [6, 6, 6] 4 =
      bvecMulfixed intDomain trialDivision m [6, 6, 6] 4 := by
    rcases Nat.lt_or_ge calls 5 with hlt | hge
    · exact ⟨calls, hlt, rfl⟩
    · refine ⟨4, by decide, Nat.le_induction rfl (fun k hk ih => ?_) calls (by omega : 4 ≤ calls)⟩
      have hsize : (4 : ℕ).size < k := show 3 < k by omega
      rw [← ih]
      exact mulfixed_calls hsize [6, 6, 6]
  obtain ⟨m, hm, heq⟩ := hexec
  obtain ⟨o, s', ho, hout⟩ := hrun
  obtain ⟨hnone, hok⟩ := conjunction_mulfixed m hm (o, s') (heq ▸ ho)
  rcases hout with ⟨-, hspent⟩ | ⟨a, ha, -⟩
  · exact hspent hok
  · exact absurd (hnone.symm.trans ha) nofun

end MoToBuddy.Bvec
