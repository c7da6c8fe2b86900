import Mathlib.Algebra.Field.Rat
import Mathlib.Algebra.Order.Ring.Rat
import MoToBuddy.Evdd.Rational
import MoToBuddy.Evdd.Unfold

/-!
# Weights in an exact field

For a type whose payloads are compared and computed with exactly, an id stands for an element
of the field (`ValueTable.weight`), each element has one id at most, and the algebra on ids
is that of the field. All built-in normalisations divide both weights by a common factor
(`Normalizing`), which scales with the weights for two of them.
-/

namespace MoToBuddy.Evdd

open Weighted

variable {K : Type*} [Field K] [DecidableEq K] {T : ValueTypes K} {t : ℕ} {V V' : ValueTable K}

/-- The callbacks of a type with payloads in an exact field. -/
structure ExactField (T : ValueTypes K) (t : ℕ) : Prop where
  registered : t < T.typeNumber
  nocell : (T.fns t).cellfun = none
  compare : ∀ a b, compareOf T t a b = true ↔ a = b
  iszero : ∀ u, isZeroPayload T t u = true ↔ u = 0
  isone : ∀ p, (T.fns t).isonefun = some p → ∀ u, p u = true ↔ u = 1
  mul : ∃ f, (T.fns t).mulfun = some f ∧ ∀ u v, f (some u) (some v) = some (u * v)
  div : ∃ f, (T.fns t).divfun = some f ∧ ∀ u v, v ≠ 0 → f (some u) (some v) = some (u / v)
  add : ∃ f, (T.fns t).addfun = some f ∧ ∀ u v, f (some u) (some v) = some (u + v)

/-- The field element an id of type `t` stands for. -/
def ValueTable.weight (V : ValueTable K) (t : ℕ) (id : ValueId) : Option K :=
  if id = evddValueZero then some 0
  else if (V.evddValues id).type = t then (V.evddValues id).payload else none

theorem ExactField.lawful (hX : ExactField T t) : LawfulCompare T t := by
  refine ⟨hX.nocell, fun a => (hX.compare a a).mpr rfl, fun a b h => ?_, fun a b c h h' => ?_,
    fun f hf a b h => ?_⟩
  · rw [hX.compare] at h ⊢
    exact h.symm
  · rw [hX.compare] at h h' ⊢
    exact h.trans h'
  · rw [hX.compare] at h
    rw [h]

omit [DecidableEq K] in
theorem weight_zero (V : ValueTable K) (t : ℕ) : V.weight t evddValueZero = some 0 := if_pos rfl

omit [DecidableEq K] in
theorem ValueTable.Ext.weight (h : V.Ext V') {id : ValueId} {x : K}
    (hx : V.weight t id = some x) : V'.weight t id = some x := by
  unfold ValueTable.weight at hx ⊢
  split
  · rename_i h0
    rwa [if_pos h0] at hx
  · rename_i h0
    rw [if_neg h0] at hx
    split at hx
    · rename_i ht
      rw [h id (by simp [hx]), if_pos ht, hx]
    · exact absurd hx (Option.some_ne_none x).symm

/-- The bare zero, or a live id whose payload is not zero. -/
theorem weight_cases (hX : ExactField T t) (hV : ValueInv T V) {id : ValueId} {x : K}
    (h : V.weight t id = some x) : id = evddValueZero ∧ x = 0 ∨
      x ≠ 0 ∧ id ≠ evddValueZero ∧ (V.evddValues id).payload = some x ∧
        evddValueTypeOf V id = some t ∧ evddValueGet V id = some x := by
  unfold ValueTable.weight at h
  split at h
  · rename_i h0
    exact Or.inl ⟨h0, (Option.some.inj h).symm⟩
  · rename_i h0
    split at h
    · rename_i ht
      obtain ⟨-, hz, -⟩ := hV.typed id x h
      obtain ⟨hid, -, htype, hget⟩ := hV.read h
      rw [ht] at hz htype
      refine Or.inr ⟨?_, hid, h, htype, hget⟩
      intro h0
      rw [(hX.iszero x).mpr h0] at hz
      exact Bool.false_ne_true hz.symm
    · exact absurd h (Option.some_ne_none x).symm

theorem weight_of_row (hV : ValueInv T V) {id : ValueId} {x : K}
    (hp : (V.evddValues id).payload = some x) (ht : (V.evddValues id).type = t) :
    V.weight t id = some x := by
  unfold ValueTable.weight
  rw [if_neg (hV.read hp).1, if_pos ht, hp]

/-- Interning is exact: an element has one id. -/
theorem weight_inj (hX : ExactField T t) (hV : ValueInv T V) {a b : ValueId} {x : K}
    (ha : V.weight t a = some x) (hb : V.weight t b = some x) : a = b := by
  rcases weight_cases hX hV ha with ⟨rfl, hx⟩ | ⟨hx, -, hpa, hta, -⟩
  · rcases weight_cases hX hV hb with ⟨rfl, -⟩ | ⟨hx', -⟩
    · rfl
    · exact absurd hx hx'
  · rcases weight_cases hX hV hb with ⟨-, hx'⟩ | ⟨-, -, hpb, htb, -⟩
    · exact absurd hx' hx
    · have hta' := (hV.read hpa).2.2.1.symm.trans hta
      have htb' := (hV.read hpb).2.2.1.symm.trans htb
      have hta'' := Option.some.inj hta'
      apply hV.unique a b x x hpa hpb (hta''.trans (Option.some.inj htb').symm)
      · rw [hta'']
        exact hX.lawful
      · rw [hta'']
        exact (hX.compare x x).mpr rfl

theorem weight_intern (hX : ExactField T t) (hV : ValueInv T V) (x : K) :
    (evddValueIntern T V (some x) t).2.weight t (evddValueIntern T V (some x) t).1 = some x := by
  have hs := evddValueIntern_spec hV (some x) t
  have hreg := hX.registered
  by_cases h0 : (evddValueIntern T V (some x) t).1 = 0
  · have hx : x = 0 := by
      have := (hs.zero.mp h0 x rfl).resolve_left (by omega)
      exact (hX.iszero x).mp this
    rw [h0, hx]
    exact weight_zero _ t
  · obtain ⟨v, u, hv, hu, ht, hcase⟩ := hs.row h0
    obtain rfl := Option.some.inj hv
    rcases hcase with ⟨rfl, -⟩ | ⟨-, hc⟩
    · exact weight_of_row hs.inv hu ht
    · rw [hX.compare] at hc
      subst hc
      exact weight_of_row hs.inv hu ht

/-! ## The algebra -/

theorem isZero_iff (hX : ExactField T t) (hV : ValueInv T V) {id : ValueId} {x : K}
    (h : V.weight t id = some x) : evddValueIsZero T V id = true ↔ x = 0 := by
  rcases weight_cases hX hV h with ⟨rfl, hx⟩ | ⟨hx, hid, -, htype, hget⟩
  · simp [evddValueIsZero, hx]
  · have hz : isZeroPayload T t x = false := by
      rw [← Bool.not_eq_true, hX.iszero]
      exact hx
    unfold evddValueIsZero evddValuePred
    unfold isZeroPayload at hz
    simp only [htype, hget, hid, hx, decide_false, Bool.false_or, iff_false]
    cases hp : (T.fns t).iszerofun with
    | none => simp
    | some p =>
      rw [hp] at hz
      simpa using hz

theorem isZero_false (hX : ExactField T t) (hV : ValueInv T V) {id : ValueId} {x : K}
    (h : V.weight t id = some x) (hx : x ≠ 0) : evddValueIsZero T V id = false := by
  rw [← Bool.not_eq_true, isZero_iff hX hV h]
  exact hx

theorem isOne_eq (hX : ExactField T t) (hV : ValueInv T V) {id : ValueId} {x : K}
    (h : V.weight t id = some x) (hone : evddValueIsOne T V id = true) : x = 1 := by
  unfold evddValueIsOne evddValuePred at hone
  rcases weight_cases hX hV h with ⟨rfl, -⟩ | ⟨-, -, -, htype, hget⟩
  · simp at hone
  · simp only [htype, hget, Bool.and_eq_true] at hone
    cases hp : (T.fns t).isonefun with
    | none => simp [hp] at hone
    | some p =>
      simp only [hp] at hone
      exact (hX.isone p hp x).mp hone.2

/-- Two live ids of the type resolve to it. -/
theorem resolveType_eq (hX : ExactField T t) (hV : ValueInv T V) {a b : ValueId} {x y : K}
    (ha : V.weight t a = some x) (hb : V.weight t b = some y) (hne : x ≠ 0 ∨ y ≠ 0) :
    evddValueResolveType V a b = (some (some t), V) := by
  unfold evddValueResolveType
  rcases weight_cases hX hV ha with ⟨rfl, hx⟩ | ⟨-, -, -, hta, -⟩
  · rcases weight_cases hX hV hb with ⟨rfl, hy⟩ | ⟨-, -, -, htb, -⟩
    · rcases hne with h | h
      · exact absurd hx h
      · exact absurd hy h
    · rw [htb]
      rfl
  · rcases weight_cases hX hV hb with ⟨rfl, hy⟩ | ⟨-, -, -, htb, -⟩
    · rw [hta]
      rfl
    · rw [hta, htb]
      simp

/-- A binary callback of the type on two payloads. -/
theorem weight_call (hX : ExactField T t) (hV : ValueInv T V) {a b : ValueId} {x y z : K}
    (ha : V.weight t a = some x) (hb : V.weight t b = some y) (hx : x ≠ 0) (hy : y ≠ 0)
    {f : EvddValueFunctions K → Option (Option K → Option K → Option K)}
    {g : Option K → Option K → Option K} (hf : f (T.fns t) = some g)
    (hg : g (some x) (some y) = some z) :
    (evddValueCall T V a b f).2.weight t (evddValueCall T V a b f).1 = some z := by
  have hgx := ((weight_cases hX hV ha).resolve_left fun h => hx h.2).2.2.2.2
  have hgy := ((weight_cases hX hV hb).resolve_left fun h => hy h.2).2.2.2.2
  unfold evddValueCall
  rw [resolveType_eq hX hV ha hb (Or.inl hx)]
  simp only [evddValueApplyBinary, hf, hgx, hgy, hg]
  exact weight_intern hX hV z

theorem weight_mul (hX : ExactField T t) (hV : ValueInv T V) {a b : ValueId} {x y : K}
    (ha : V.weight t a = some x) (hb : V.weight t b = some y) :
    (evddValueMul T V a b).2.weight t (evddValueMul T V a b).1 = some (x * y) := by
  unfold evddValueMul
  split
  · rename_i hz
    rw [Bool.or_eq_true, isZero_iff hX hV ha, isZero_iff hX hV hb] at hz
    rw [mul_eq_zero.mpr hz]
    exact weight_zero V t
  rename_i hz
  rw [Bool.or_eq_true, isZero_iff hX hV ha, isZero_iff hX hV hb, not_or] at hz
  split
  · rename_i h1
    rw [isOne_eq hX hV ha h1, one_mul]
    exact hb
  split
  · rename_i h1
    rw [isOne_eq hX hV hb h1, mul_one]
    exact ha
  · obtain ⟨f, hf, hfv⟩ := hX.mul
    exact weight_call hX hV ha hb hz.1 hz.2 hf (hfv x y)

theorem weight_div (hX : ExactField T t) (hV : ValueInv T V) {a b : ValueId} {x y : K}
    (ha : V.weight t a = some x) (hb : V.weight t b = some y) (hy : y ≠ 0) :
    (evddValueDiv T V a b).2.weight t (evddValueDiv T V a b).1 = some (x / y) := by
  unfold evddValueDiv
  rw [if_neg (by rwa [isZero_iff hX hV hb])]
  split
  · rename_i hz
    rw [isZero_iff hX hV ha] at hz
    rw [hz, zero_div]
    exact weight_zero V t
  rename_i hz
  rw [isZero_iff hX hV ha] at hz
  split
  · rename_i h1
    rw [isOne_eq hX hV hb h1, div_one]
    exact ha
  · obtain ⟨f, hf, hfv⟩ := hX.div
    exact weight_call hX hV ha hb hz hy hf (hfv x y hy)

theorem weight_add (hX : ExactField T t) (hV : ValueInv T V) {a b : ValueId} {x y : K}
    (ha : V.weight t a = some x) (hb : V.weight t b = some y) :
    (evddValueAdd T V a b).2.weight t (evddValueAdd T V a b).1 = some (x + y) := by
  unfold evddValueAdd
  split
  · rename_i hz
    rw [isZero_iff hX hV ha] at hz
    rw [hz, zero_add]
    exact hb
  rename_i hz
  rw [isZero_iff hX hV ha] at hz
  split
  · rename_i hz'
    rw [isZero_iff hX hV hb] at hz'
    rw [hz', add_zero]
    exact ha
  · rename_i hz'
    rw [isZero_iff hX hV hb] at hz'
    obtain ⟨f, hf, hfv⟩ := hX.add
    exact weight_call hX hV ha hb hz hz' hf (hfv x y)

theorem weight_unit (hX : ExactField T t) (hV : ValueInv T V) {a : ValueId} {x : K}
    (ha : V.weight t a = some x) (hx : x ≠ 0) :
    (evddValueUnit T V a).2.weight t (evddValueUnit T V a).1 = some 1 := by
  unfold evddValueUnit
  rw [if_neg (by rwa [isZero_iff hX hV ha]), ← div_self hx]
  exact weight_div hX hV ha ha hx

/-- The unit of a node is one. -/
theorem weight_unitFromPair (hX : ExactField T t) (hV : ValueInv T V) {a b : ValueId} {x y : K}
    (ha : V.weight t a = some x) (hb : V.weight t b = some y) (hne : x ≠ 0 ∨ y ≠ 0) :
    (evddValueUnitFromPair T V a b).2.weight t (evddValueUnitFromPair T V a b).1 = some 1 := by
  unfold evddValueUnitFromPair
  by_cases hx : x = 0
  · have hy : y ≠ 0 := hne.resolve_left (not_not.mpr hx)
    rw [(isZero_iff hX hV ha).mpr hx, isZero_false hX hV hb hy]
    exact weight_unit hX hV hb hy
  · rw [isZero_false hX hV ha hx]
    exact weight_unit hX hV ha hx

/-! ## Normalisation -/

/-- The weights of a normalisation result are those of the operands divided by the factor. -/
structure NormWeights (t : ℕ) (x y f : K) (N : EvddNormResult × ValueTable K) : Prop where
  low : N.2.weight t N.1.wLow = some (x / f)
  high : N.2.weight t N.1.wHigh = some (y / f)
  incoming : N.2.weight t N.1.incoming = some f

/-- The normalisation of the type divides both weights by a common factor. -/
structure Normalizing (T : ValueTypes K) (t : ℕ) (factor : K → K → K) : Prop
    extends CommonFactor factor where
  spec : ∀ V, ValueInv T V → ∀ a b x y, V.weight t a = some x → V.weight t b = some y →
    NormWeights t x y (factor x y) (evddValueNormalize T V a b)

/-- The factor of `EVDD_NORMALIZE_FIRST_NONZERO`. -/
def firstNonzeroFactor (x y : K) : K := if x = 0 then y else x

/-- The factor of `EVDD_NORMALIZE_LOW`. -/
def lowFactor (x y : K) : K := if x = 0 then if y = 0 then 0 else 1 else x

/-- The factor of `EVDD_NORMALIZE_MAX_MAGNITUDE`. -/
def maxMagnitudeFactor' (abscmp : Option (Option K → Option K → ℤ)) (x y : K) : K :=
  if x = 0 then y
  else if y = 0 then x
  else match abscmp with
    | none => x
    | some f => if f (some x) (some y) ≥ 0 then x else y

/-- The factor of `EVDD_NORMALIZE_L2`. -/
def l2Factor (absq sqrt : K → K) (x y : K) : K :=
  if x = 0 ∧ y = 0 then 0 else sqrt (absq x + absq y)

theorem commonFactor_firstNonzero : CommonFactor (firstNonzeroFactor (K := K)) := by
  refine ⟨if_pos rfl, fun x y h => ?_⟩
  unfold firstNonzeroFactor at h
  split at h
  · rename_i hx
    exact ⟨hx, h⟩
  · rename_i hx
    exact absurd h hx

theorem commonFactor_low : CommonFactor (lowFactor (K := K)) := by
  refine ⟨by simp [lowFactor], fun x y h => ?_⟩
  unfold lowFactor at h
  split at h
  · rename_i hx
    split at h
    · rename_i hy
      exact ⟨hx, hy⟩
    · exact absurd h one_ne_zero
  · rename_i hx
    exact absurd h hx

theorem maxMagnitudeFactor'_mem (abscmp : Option (Option K → Option K → ℤ)) (x y : K) :
    maxMagnitudeFactor' abscmp x y = y ∧ (x = 0 ∨ y ≠ 0) ∨
      maxMagnitudeFactor' abscmp x y = x ∧ x ≠ 0 := by
  unfold maxMagnitudeFactor'
  by_cases hx : x = 0
  · rw [if_pos hx]
    exact Or.inl ⟨rfl, Or.inl hx⟩
  rw [if_neg hx]
  by_cases hy : y = 0
  · rw [if_pos hy]
    exact Or.inr ⟨rfl, hx⟩
  rw [if_neg hy]
  cases abscmp with
  | none => exact Or.inr ⟨rfl, hx⟩
  | some f =>
    simp only
    split
    · exact Or.inr ⟨rfl, hx⟩
    · exact Or.inl ⟨rfl, Or.inr hy⟩

theorem commonFactor_maxMagnitude (abscmp : Option (Option K → Option K → ℤ)) :
    CommonFactor (maxMagnitudeFactor' abscmp) := by
  refine ⟨if_pos rfl, fun x y h => ?_⟩
  rcases maxMagnitudeFactor'_mem abscmp x y with ⟨hf, hx | hy⟩ | ⟨hf, hx⟩
  · exact ⟨hx, hf ▸ h⟩
  · exact absurd (hf ▸ h) hy
  · exact absurd (hf ▸ h) hx

omit [DecidableEq K] in
/-- Two zeros normalise to zeros, whatever the factor. -/
theorem normWeights_zeros (V : ValueTable K) (f : K) (hf : f = 0) :
    NormWeights t 0 0 f (evddNormZeros, V) := by
  subst hf
  have h0 : V.weight t evddValueZero = some ((0 : K) / 0) := by
    rw [div_zero]
    exact weight_zero V t
  exact ⟨h0, h0, weight_zero V t⟩

/-- The function behind a strategy. -/
def normFunction (T : ValueTypes K) : EvddNormalize K →
    ValueTable K → ValueId → ValueId → EvddNormResult × ValueTable K
  | .firstNonzero => evddNormFirstNonzero T
  | .low => evddNormLow T
  | .maxMagnitude => evddNormMaxMagnitude T
  | .l2 => evddNormL2 T
  | .custom f => f

/-- A strategy only has to be looked at where not both weights are zero. -/
theorem Normalizing.of_strategy (hX : ExactField T t) {factor : K → K → K}
    (hf : CommonFactor factor) {strategy : EvddNormalize K}
    (hstrategy : (T.fns t).normalizefun = some strategy)
    (h : ∀ V, ValueInv T V → ∀ a b x y, V.weight t a = some x → V.weight t b = some y →
      (x ≠ 0 ∨ y ≠ 0) → NormWeights t x y (factor x y) (normFunction T strategy V a b)) :
    Normalizing T t factor := by
  refine ⟨hf, fun V hV a b x y ha hb => ?_⟩
  unfold evddValueNormalize
  split
  · rename_i hz
    rw [Bool.and_eq_true, isZero_iff hX hV ha, isZero_iff hX hV hb] at hz
    rw [hz.1, hz.2]
    exact normWeights_zeros V _ hf.zero
  · rename_i hz
    rw [Bool.and_eq_true, isZero_iff hX hV ha, isZero_iff hX hV hb] at hz
    have hne : x ≠ 0 ∨ y ≠ 0 := not_and_or.mp hz
    have hu := (evddValueUnitFromPair_algebraic hV a b).ext
    have ha' := hu.ext.weight ha
    have hb' := hu.ext.weight hb
    have hres := resolveType_eq hX hu.inv ha' hb' hne
    have hn := h _ hu.inv a b x y ha' hb' hne
    simp only [hres, hstrategy]
    cases strategy <;> exact hn

/-- Dividing both weights by one of them. -/
theorem normWeights_unit (hX : ExactField T t) (hV : ValueInv T V) {a b : ValueId} {x y : K}
    (ha : V.weight t a = some x) (hb : V.weight t b = some y) (hx : x ≠ 0) :
    let l := evddValueUnit T V a
    let h := evddValueDiv T l.2 b a
    NormWeights t x y x (⟨l.1, h.1, a⟩, h.2) := by
  intro l h
  have hl := (evddValueUnit_algebraic hV a).ext
  have hh := (evddValueDiv_algebraic hl.inv b a).ext
  refine ⟨?_, weight_div hX hl.inv (hl.ext.weight hb) (hl.ext.weight ha) hx,
    (hl.trans hh).ext.weight ha⟩
  rw [div_self hx]
  exact hh.ext.weight (weight_unit hX hV ha hx)

theorem normalizing_firstNonzero (hX : ExactField T t)
    (h : (T.fns t).normalizefun = some .firstNonzero) :
    Normalizing T t firstNonzeroFactor := by
  apply Normalizing.of_strategy hX commonFactor_firstNonzero h
  intro V hV a b x y ha hb hne
  show NormWeights t x y _ (evddNormFirstNonzero T V a b)
  unfold evddNormFirstNonzero firstNonzeroFactor
  by_cases hx : x = 0
  · have hy : y ≠ 0 := hne.resolve_left (not_not.mpr hx)
    have hu := (evddValueUnit_algebraic hV b).ext
    rw [(isZero_iff hX hV ha).mpr hx, isZero_false hX hV hb hy, if_pos hx, hx]
    refine ⟨?_, ?_, hu.ext.weight hb⟩
    · rw [zero_div]
      exact weight_zero _ t
    · rw [div_self hy]
      exact weight_unit hX hV hb hy
  · rw [isZero_false hX hV ha hx, if_neg hx]
    exact normWeights_unit hX hV ha hb hx

theorem normalizing_low (hX : ExactField T t) (h : (T.fns t).normalizefun = some .low) :
    Normalizing T t lowFactor := by
  apply Normalizing.of_strategy hX commonFactor_low h
  intro V hV a b x y ha hb hne
  show NormWeights t x y _ (evddNormLow T V a b)
  unfold evddNormLow lowFactor
  by_cases hx : x = 0
  · have hy : y ≠ 0 := hne.resolve_left (not_not.mpr hx)
    have hu := (evddValueUnit_algebraic hV b).ext
    rw [(isZero_iff hX hV ha).mpr hx, isZero_false hX hV hb hy, if_pos hx, if_neg hy, hx]
    refine ⟨?_, ?_, weight_unit hX hV hb hy⟩
    · rw [zero_div]
      exact weight_zero _ t
    · rw [div_one]
      exact hu.ext.weight hb
  · rw [isZero_false hX hV ha hx, if_neg hx]
    exact normWeights_unit hX hV ha hb hx

/-- The factor is one of the weights, and its id one of theirs. -/
theorem maxMagnitudeFactor_weight (hX : ExactField T t) (hV : ValueInv T V) {a b : ValueId}
    {x y : K} (ha : V.weight t a = some x) (hb : V.weight t b = some y) :
    (maxMagnitudeFactor T V a b).2 = V ∧
      V.weight t (maxMagnitudeFactor T V a b).1 =
        some (maxMagnitudeFactor' (T.fns t).abscmpfun x y) := by
  unfold maxMagnitudeFactor maxMagnitudeFactor'
  by_cases hx : x = 0
  · rw [if_pos ((isZero_iff hX hV ha).mpr hx), if_pos hx]
    exact ⟨rfl, hb⟩
  rw [if_neg (by rwa [isZero_iff hX hV ha]), if_neg hx]
  by_cases hy : y = 0
  · rw [if_pos ((isZero_iff hX hV hb).mpr hy), if_pos hy]
    exact ⟨rfl, ha⟩
  rw [if_neg (by rwa [isZero_iff hX hV hb]), if_neg hy]
  have hgx := ((weight_cases hX hV ha).resolve_left fun h => hx h.2).2.2.2.2
  have hgy := ((weight_cases hX hV hb).resolve_left fun h => hy h.2).2.2.2.2
  rw [resolveType_eq hX hV ha hb (Or.inl hx)]
  cases hc : (T.fns t).abscmpfun with
  | none =>
    simp only [hc]
    exact ⟨trivial, ha⟩
  | some f =>
    simp only [hc, hgx, hgy]
    by_cases hge : f (some x) (some y) ≥ 0
    · simp only [if_pos hge]
      exact ⟨trivial, ha⟩
    · simp only [if_neg hge]
      exact ⟨trivial, hb⟩

/-- Dividing both weights by an id for the factor. -/
theorem normWeights_div (hX : ExactField T t) (hV : ValueInv T V) {a b n : ValueId} {x y f : K}
    (ha : V.weight t a = some x) (hb : V.weight t b = some y) (hn : V.weight t n = some f)
    (hf : f ≠ 0) :
    let l := evddValueDiv T V a n
    let h := evddValueDiv T l.2 b n
    NormWeights t x y f (⟨l.1, h.1, n⟩, h.2) := by
  intro l h
  have hl := (evddValueDiv_algebraic hV a n).ext
  have hh := (evddValueDiv_algebraic hl.inv b n).ext
  exact ⟨hh.ext.weight (weight_div hX hV ha hn hf),
    weight_div hX hl.inv (hl.ext.weight hb) (hl.ext.weight hn) hf, (hl.trans hh).ext.weight hn⟩

theorem normalizing_maxMagnitude (hX : ExactField T t)
    (h : (T.fns t).normalizefun = some .maxMagnitude) :
    Normalizing T t (maxMagnitudeFactor' (T.fns t).abscmpfun) := by
  apply Normalizing.of_strategy hX (commonFactor_maxMagnitude _) h
  intro V hV a b x y ha hb hne
  show NormWeights t x y _ (evddNormMaxMagnitude T V a b)
  unfold evddNormMaxMagnitude
  have hz : (evddValueIsZero T V a && evddValueIsZero T V b) = false := by
    rw [← Bool.not_eq_true, Bool.and_eq_true, isZero_iff hX hV ha, isZero_iff hX hV hb]
    tauto
  rw [hz]
  obtain ⟨hst, hw⟩ := maxMagnitudeFactor_weight hX hV ha hb
  simp only [hst]
  exact normWeights_div hX hV ha hb hw ((commonFactor_maxMagnitude _).factor_ne hne)

/-- The L2 strategy over exact square roots: the form is definite, and its values have roots. -/
structure ExactRoots (T : ValueTypes K) (t : ℕ) (absq sqrt : K → K) : Prop where
  absqfun : ∃ f, (T.fns t).absqfun = some f ∧ ∀ u, f (some u) = some (absq u)
  sqrtfun : ∃ f, (T.fns t).sqrtfun = some f ∧ ∀ u, f (some u) = some (sqrt u)
  zero : absq 0 = 0
  definite : ∀ x y, absq x + absq y = 0 → x = 0 ∧ y = 0
  exact : ∀ x y, sqrt (absq x + absq y) * sqrt (absq x + absq y) = absq x + absq y

variable {absq sqrt : K → K}

theorem commonFactor_l2 (hR : ExactRoots T t absq sqrt) : CommonFactor (l2Factor absq sqrt) := by
  refine ⟨if_pos ⟨rfl, rfl⟩, fun x y h => ?_⟩
  unfold l2Factor at h
  split at h
  · assumption
  · apply hR.definite
    rw [← hR.exact, h, mul_zero]

/-- The interned image of a payload under an exact unary callback. -/
theorem weight_internUnary (hX : ExactField T t) (hV : ValueInv T V) {a : ValueId} {x z : K}
    (ha : V.weight t a = some x) (hx : x ≠ 0) {f : Option K → Option K}
    (hf : f (some x) = some z) :
    (internUnary T V (some f) a t).2.weight t (internUnary T V (some f) a t).1 = some z := by
  have hget := ((weight_cases hX hV ha).resolve_left fun h => hx h.2).2.2.2.2
  unfold internUnary
  simp only [hget, hf]
  exact weight_intern hX hV z

/-- The square of a weight, zero being short-cut. -/
theorem weight_absq (hX : ExactField T t) (hR : ExactRoots T t absq sqrt) (hV : ValueInv T V)
    {a : ValueId} {x : K} (ha : V.weight t a = some x) {r : ValueId × ValueTable K}
    (hr : r = if evddValueIsZero T V a then (evddValueZero, V)
      else internUnary T V (T.fns t).absqfun a t) :
    r.2.weight t r.1 = some (absq x) ∧ Extends T V r.2 := by
  subst hr
  by_cases hx : x = 0
  · rw [if_pos ((isZero_iff hX hV ha).mpr hx), hx, hR.zero]
    exact ⟨weight_zero V t, .refl hV⟩
  · rw [if_neg (by rwa [isZero_iff hX hV ha])]
    obtain ⟨f, hf, hfv⟩ := hR.absqfun
    refine ⟨?_, (internUnary_algebraic hV _ _ _).ext⟩
    rw [hf]
    exact weight_internUnary hX hV ha hx (hfv x)

theorem normalizing_l2 (hX : ExactField T t) (hR : ExactRoots T t absq sqrt)
    (h : (T.fns t).normalizefun = some .l2) : Normalizing T t (l2Factor absq sqrt) := by
  apply Normalizing.of_strategy hX (commonFactor_l2 hR) h
  intro V hV a b x y ha hb hne
  show NormWeights t x y _ (evddNormL2 T V a b)
  have hz : (evddValueIsZero T V a && evddValueIsZero T V b) = false := by
    rw [← Bool.not_eq_true, Bool.and_eq_true, isZero_iff hX hV ha, isZero_iff hX hV hb]
    tauto
  have hsum : absq x + absq y ≠ 0 := fun h0 => not_and_or.mpr hne (hR.definite x y h0)
  unfold evddNormL2
  rw [hz, resolveType_eq hX hV ha hb hne]
  simp only [Bool.false_eq_true, if_false]
  -- the two squares, their sum and its root, in the order in which they are interned
  generalize hsq0 : (if evddValueIsZero T V a then (evddValueZero, V)
    else internUnary T V (T.fns t).absqfun a t) = sq0
  obtain ⟨h0, he0⟩ := weight_absq hX hR hV ha hsq0.symm
  generalize hsq1 : (if evddValueIsZero T sq0.2 b then (evddValueZero, sq0.2)
    else internUnary T sq0.2 (T.fns t).absqfun b t) = sq1
  obtain ⟨h1, he1⟩ := weight_absq hX hR he0.inv (he0.ext.weight hb) hsq1.symm
  have hadd := weight_add hX he1.inv (he1.ext.weight h0) h1
  have headd := (evddValueAdd_algebraic he1.inv sq0.1 sq1.1).ext
  generalize evddValueAdd T sq1.2 sq0.1 sq1.1 = sum at hadd headd ⊢
  obtain ⟨f, hf, hfv⟩ := hR.sqrtfun
  have hroot := weight_internUnary hX headd.inv hadd hsum (hfv _)
  have heroot := (internUnary_algebraic headd.inv (some f) sum.1 t).ext
  rw [hf]
  generalize internUnary T sum.2 (some f) sum.1 t = n at hroot heroot ⊢
  have hext := ((he0.trans he1).trans headd).trans heroot
  have hfac : l2Factor absq sqrt x y = sqrt (absq x + absq y) := by
    unfold l2Factor
    rw [if_neg (not_and_or.mpr hne)]
  have hne0 := (commonFactor_l2 hR).factor_ne hne
  rw [hfac] at hne0 ⊢
  exact normWeights_div hX hext.inv (hext.ext.weight ha) (hext.ext.weight hb) hroot hne0

/-! ## Factors that scale -/

theorem scales_firstNonzero : Scales (firstNonzeroFactor (K := K)) := by
  intro c x y hc
  unfold firstNonzeroFactor
  by_cases hx : x = 0
  · rw [hx, mul_zero, if_pos rfl, if_pos rfl]
  · rw [if_neg (mul_ne_zero hc hx), if_neg hx]

/-- `abscmpfun` compares by a multiplicative magnitude. -/
def ComparesMagnitude {R : Type*} [Semiring R] [LinearOrder R] (T : ValueTypes K) (t : ℕ)
    (magnitude : K → R) : Prop :=
  (∀ x y, magnitude (x * y) = magnitude x * magnitude y) ∧ (∀ x, x ≠ 0 → 0 < magnitude x) ∧
    ∃ f, (T.fns t).abscmpfun = some f ∧
      ∀ x y, f (some x) (some y) ≥ 0 ↔ magnitude y ≤ magnitude x

theorem scales_maxMagnitude {R : Type*} [Semiring R] [LinearOrder R] [IsStrictOrderedRing R]
    {magnitude : K → R} (hm : ComparesMagnitude T t magnitude) :
    Scales (maxMagnitudeFactor' (T.fns t).abscmpfun) := by
  obtain ⟨hmul, hpos, f, hf, hcmp⟩ := hm
  intro c x y hc
  have hle : f (some (c * x)) (some (c * y)) ≥ 0 ↔ f (some x) (some y) ≥ 0 := by
    rw [hcmp, hcmp, hmul, hmul]
    exact mul_le_mul_iff_right₀ (hpos c hc)
  unfold maxMagnitudeFactor'
  rw [hf]
  by_cases hx : x = 0
  · rw [hx, mul_zero, if_pos rfl, if_pos rfl]
  by_cases hy : y = 0
  · rw [hy, mul_zero, if_pos rfl, if_pos rfl, if_neg (mul_ne_zero hc hx), if_neg hx]
  rw [if_neg (mul_ne_zero hc hx), if_neg (mul_ne_zero hc hy), if_neg hx, if_neg hy]
  show (if f (some (c * x)) (some (c * y)) ≥ 0 then c * x else c * y) =
    c * if f (some x) (some y) ≥ 0 then x else y
  rw [mul_ite]
  exact if_congr hle rfl rfl

/-! ## The rationals -/

theorem ratTypes_exactField (normalize : EvddNormalize ℚ) : ExactField (ratTypes normalize) 0 where
  registered := Nat.one_pos
  nocell := rfl
  compare _ _ := decide_eq_true_iff
  iszero _ := decide_eq_true_iff
  isone := by
    intro p hp u
    rw [← Option.some.inj hp]
    exact decide_eq_true_iff
  mul := ⟨_, rfl, fun _ _ => rfl⟩
  div := ⟨_, rfl, fun _ _ _ => rfl⟩
  add := ⟨_, rfl, fun _ _ => rfl⟩

theorem ratTypes_comparesMagnitude (normalize : EvddNormalize ℚ) :
    ComparesMagnitude (ratTypes normalize) 0 (fun x : ℚ => |x|) := by
  refine ⟨abs_mul, fun x hx => abs_pos.mpr hx, _, rfl, fun x y => ?_⟩
  show (if |x| < |y| then (-1 : ℤ) else if |y| < |x| then 1 else 0) ≥ 0 ↔ _
  split
  · rename_i h
    exact ⟨fun h' => absurd h' (by decide), fun h' => absurd h (not_lt.mpr h')⟩
  · rename_i h
    refine ⟨fun _ => not_lt.mp h, fun _ => ?_⟩
    split <;> decide

end MoToBuddy.Evdd
