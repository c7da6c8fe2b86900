import MoToBuddy.Evdd.Scale

/-!
# Normalisations factor (`evdd_value.c`)

Normalising takes a factor out of a pair of weights: multiplied by it, the new weights are the old
ones, and from the new pair no factor can be taken out any more.
-/

namespace MoToBuddy.Evdd

open Weighted

variable {K : Type*} [Field K] [LinearOrder K] [IsStrictOrderedRing K] {T : ValueTypes K} {t : ℕ}
  {sqrt : K → K} {strategy : EvddNormalize K} {V : ValueTable K} {a b : ValueId} {x y : K}

/-- The incoming weight times the new weights gives the old ones, it is zero only if both of them
are, and the new pair stays as it is. -/
structure Factors (T : ValueTypes K) (V : ValueTable K) (a b : ValueId) : Prop where
  low : let N := evddValueNormalize T V a b
    (evddValueMul T N.2 N.1.incoming N.1.wLow).1 = a
  high : let N := evddValueNormalize T V a b
    (evddValueMul T N.2 N.1.incoming N.1.wHigh).1 = b
  zero : let N := evddValueNormalize T V a b
    evddValueIsZero T N.2 N.1.incoming = true ↔
      evddValueIsZero T V a = true ∧ evddValueIsZero T V b = true
  again : let N := evddValueNormalize T V a b
    let N' := evddValueNormalize T N.2 N.1.wLow N.1.wHigh
    N'.1.wLow = N.1.wLow ∧ N'.1.wHigh = N.1.wHigh

/-- The factor that is taken out of the new pair. -/
def incomingAgain (T : ValueTypes K) (V : ValueTable K) (a b : ValueId) : ValueId × ValueTable K :=
  let N := evddValueNormalize T V a b
  let N' := evddValueNormalize T N.2 N.1.wLow N.1.wHigh
  (N'.1.incoming, N'.2)

/-! ## What is left has the factor one -/

/-- A factor that scales with the inverse of itself. -/
theorem factor_quotients {factor : K → K → K} (hf : factor x y ≠ 0)
    (hscale : factor ((factor x y)⁻¹ * x) ((factor x y)⁻¹ * y) =
      (factor x y)⁻¹ * factor x y) :
    factor (x / factor x y) (y / factor x y) = 1 := by
  rw [div_eq_inv_mul, div_eq_inv_mul, hscale, inv_mul_cancel₀ hf]

theorem ExactStrategy.exists_fixed (hS : ExactStrategy T t strategy sqrt) :
    ∃ factor, Normalizing T t factor ∧ ∀ x y, x ≠ 0 ∨ y ≠ 0 →
      factor (x / factor x y) (y / factor x y) = 1 := by
  obtain ⟨hX, hreg, hbuiltin, hmag, hroots, hsqrt⟩ := hS
  cases strategy with
  | firstNonzero =>
    have hN := normalizing_firstNonzero hX hreg
    refine ⟨_, hN, fun x y hne => factor_quotients (hN.factor_ne hne) ?_⟩
    exact scales_firstNonzero _ x y (inv_ne_zero (hN.factor_ne hne))
  | low =>
    have hN := normalizing_low hX hreg
    refine ⟨_, hN, fun x y hne => factor_quotients (hN.factor_ne hne) ?_⟩
    refine (lowFactor_scales_iff hne (inv_ne_zero (hN.factor_ne hne))).mpr ?_
    -- the high edge alone is left as it is
    by_cases hx : x = 0
    · right
      have hy : y ≠ 0 := hne.resolve_left (not_not.mpr hx)
      simp [lowFactor, hx, hy]
    · exact Or.inl hx
  | maxMagnitude =>
    have hN := normalizing_maxMagnitude hX hreg
    refine ⟨_, hN, fun x y hne => factor_quotients (hN.factor_ne hne) ?_⟩
    exact scales_maxMagnitude (hmag rfl) _ x y (inv_ne_zero (hN.factor_ne hne))
  | l2 =>
    have hN := normalizing_l2 hX (hroots rfl) hreg
    refine ⟨_, hN, fun x y hne => factor_quotients (hN.factor_ne hne) ?_⟩
    have hf := hN.factor_ne hne
    refine (l2Factor_scales_iff (hroots rfl) (hsqrt rfl) hne (inv_ne_zero hf)).mpr ?_
    -- roots are not negative
    refine inv_pos.mpr (lt_of_le_of_ne ?_ hf.symm)
    unfold l2Factor
    rw [if_neg (not_and_or.mpr hne)]
    exact hsqrt rfl _
  | custom f => exact absurd rfl (hbuiltin f)

theorem isOne_true (hX : ExactField T t) (hV : ValueInv T V) (hone : (T.fns t).isonefun.isSome)
    (h : V.weight t a = some 1) : evddValueIsOne T V a = true := by
  obtain ⟨p, hp⟩ := Option.isSome_iff_exists.mp hone
  obtain ⟨-, hid, -, htype, hget⟩ := (weight_cases hX hV h).resolve_left fun h => one_ne_zero h.2
  unfold evddValueIsOne evddValuePred
  simp only [htype, hget, hp, hid, ne_eq, not_false_eq_true, decide_true, Bool.true_and]
  exact (hX.isone p hp 1).mpr rfl

/-! ## Normalisation -/

/-- For each built-in strategy over an exact field. The factor that is left is one, if there is a
weight that is not zero. -/
theorem normalize_factors (hT : LawfulNormalize T) (hS : ExactStrategy T t strategy sqrt)
    (hone : (T.fns t).isonefun.isSome) (hV : ValueInv T V) (ha : V.weight t a = some x)
    (hb : V.weight t b = some y) :
    Factors T V a b ∧
      if evddValueIsZero T V a && evddValueIsZero T V b then
        (incomingAgain T V a b).1 = evddValueZero
      else evddValueIsOne T (incomingAgain T V a b).2 (incomingAgain T V a b).1 = true := by
  obtain ⟨factor, hfactor, hfixed⟩ := hS.exists_fixed
  have hX := hS.field
  have hN := hfactor.spec V hV a b x y ha hb
  have hext := (evddValueNormalize_spec hT hV a b).ext
  have hza := isZero_iff hX hV ha
  have hzb := isZero_iff hX hV hb
  unfold incomingAgain
  set N := evddValueNormalize T V a b
  have hN' := hfactor.spec N.2 hext.inv _ _ _ _ hN.low hN.high
  have hext' := (evddValueNormalize_spec hT hext.inv N.1.wLow N.1.wHigh).ext
  set N' := evddValueNormalize T N.2 N.1.wLow N.1.wHigh
  set f := factor x y
  have hzero : f = 0 ↔ x = 0 ∧ y = 0 := by
    refine ⟨hfactor.ne_zero x y, fun h => ?_⟩
    show factor x y = 0
    rw [h.1, h.2, hfactor.zero]
  -- what is multiplied is still there
  have hback : ∀ {w c : ValueId} {z : K}, N.2.weight t w = some (z / f) → (f = 0 → z = 0) →
      V.weight t c = some z → (evddValueMul T N.2 N.1.incoming w).1 = c := by
    intro w c z hw h0 hc
    have hmul := weight_mul hX hext.inv hN.incoming hw
    have hmore := (evddValueMul_algebraic hext.inv N.1.incoming w).ext
    have hprod : f * (z / f) = z := by
      by_cases hf : f = 0
      · rw [hf, h0 hf, zero_mul]
      · exact mul_div_cancel₀ z hf
    rw [hprod] at hmul
    exact weight_inj hX hmore.inv hmul (hmore.ext.weight (hext.ext.weight hc))
  have hsame : ∀ z, (f = 0 → z = 0) → z / f / factor (x / f) (y / f) = z / f := by
    intro z h0
    by_cases hf : f = 0
    · rw [h0 hf, zero_div, zero_div]
    · rw [hfixed x y (not_and_or.mp (hzero.not.mp hf)), div_one]
  have hx0 : f = 0 → x = 0 := fun hf => (hzero.mp hf).1
  have hy0 : f = 0 → y = 0 := fun hf => (hzero.mp hf).2
  have hlow' := hN'.low
  have hhigh' := hN'.high
  rw [hsame x hx0] at hlow'
  rw [hsame y hy0] at hhigh'
  refine ⟨⟨hback hN.low hx0 ha, hback hN.high hy0 hb, ?_, ?_, ?_⟩, ?_⟩
  · rw [hza, hzb, ← hzero]
    exact isZero_iff hX hext.inv hN.incoming
  · exact weight_inj hX hext'.inv hlow' (hext'.ext.weight hN.low)
  · exact weight_inj hX hext'.inv hhigh' (hext'.ext.weight hN.high)
  · have hboth : (evddValueIsZero T V a && evddValueIsZero T V b) = true ↔ f = 0 := by
      rw [Bool.and_eq_true, hza, hzb, hzero]
    by_cases hf : f = 0
    · rw [if_pos (hboth.mpr hf)]
      have hincoming := hN'.incoming
      rw [hx0 hf, hy0 hf, zero_div, hfactor.zero] at hincoming
      exact weight_inj hX hext'.inv hincoming (weight_zero _ t)
    · rw [if_neg (hboth.not.mpr hf)]
      refine isOne_true hX hext'.inv hone ?_
      rw [← hfixed x y (not_and_or.mp (hzero.not.mp hf))]
      exact hN'.incoming

/-- The pair `(2, 4)`. -/
theorem normalize_factors_rat :
    let p := internPair (ratTypes .firstNonzero) .empty 0 2 4
    Factors (ratTypes .firstNonzero) p.2 p.1.1 p.1.2 := by
  have hS : ExactStrategy (ratTypes .firstNonzero) 0 .firstNonzero id :=
    ratTypes_exactStrategy nofun nofun
  obtain ⟨hp, hx, hy⟩ := internPair_spec hS.field (ValueInv.empty (ratTypes .firstNonzero)) 2 4
  exact (normalize_factors ratTypes_lawfulNormalize hS rfl hp.inv hx hy).1

/-- The factor that is left of a pair of zeros is not one. -/
theorem zeros_not_one : let N := incomingAgain (ratTypes .firstNonzero) .empty 0 0
    ¬ (Factors (ratTypes .firstNonzero) .empty 0 0 ∧
      evddValueIsOne (ratTypes .firstNonzero) N.2 N.1 = true) := by
  intro N h
  have hone : evddValueIsOne (ratTypes .firstNonzero) N.2 N.1 = false := by decide
  rw [hone] at h
  exact Bool.false_ne_true h.2

end MoToBuddy.Evdd
