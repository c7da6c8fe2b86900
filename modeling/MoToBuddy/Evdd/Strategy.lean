import MoToBuddy.Evdd.Session

/-!
# Accepting a normalisation strategy (`evdd_value.c`)

`evdd_set_normalization` looks at the callbacks of a type before it accepts a strategy for it.
What it asks for is compared with what `evdd_makenode` and `evdd_value_normalize` call: the
absence of a callback is noticed where the result is not the one that the callback would have
given, whatever it computes.
-/

namespace MoToBuddy.Evdd

/-- `evddNormalizeStrategy`. -/
inductive EvddNormalizeStrategy
  | firstNonzero
  | low
  | maxMagnitude
  | l2
  | custom
  deriving DecidableEq, Repr

/-- The callbacks that the algebra and the strategies call. -/
inductive EvddCallback
  | iszero
  | isone
  | mul
  | div
  | add
  | abscmp
  | absq
  | sqrt
  | normalize
  deriving DecidableEq, Repr

section Model

variable {P : Type*}

/-- Whether a callback is registered. -/
def EvddValueFunctions.has (fns : EvddValueFunctions P) : EvddCallback → Bool
  | .iszero => fns.iszerofun.isSome
  | .isone => fns.isonefun.isSome
  | .mul => fns.mulfun.isSome
  | .div => fns.divfun.isSome
  | .add => fns.addfun.isSome
  | .abscmp => fns.abscmpfun.isSome
  | .absq => fns.absqfun.isSome
  | .sqrt => fns.sqrtfun.isSome
  | .normalize => fns.normalizefun.isSome

/-- The types with the strategies they are frozen with. Before that, `normalizefun` is what the
caller registered. -/
structure ValueRegistry (P : Type*) where
  types : ValueTypes P
  strategy : ℕ → Option EvddNormalizeStrategy
  errors : List BddError
  custom : ∀ t, strategy t = none → ∀ n, (types.fns t).normalizefun = some n → ∃ f, n = .custom f

/-- The callback that a strategy installs. -/
def EvddNormalizeStrategy.normalizefun (fns : EvddValueFunctions P) :
    EvddNormalizeStrategy → Option (EvddNormalize P)
  | .firstNonzero => some .firstNonzero
  | .low => some .low
  | .maxMagnitude => some .maxMagnitude
  | .l2 => some .l2
  | .custom => fns.normalizefun

/-- The condition `ok` of `evdd_set_normalization`. -/
def EvddNormalizeStrategy.ok (has : EvddCallback → Bool) : EvddNormalizeStrategy → Bool
  | .firstNonzero => has .iszero && has .mul && has .div
  | .low => has .iszero && has .mul && has .div
  | .maxMagnitude => has .iszero && has .abscmp && has .mul && has .div
  | .l2 => has .add && has .absq && has .sqrt && has .div
  | .custom => has .normalize

/-- The callbacks of a type after a strategy was accepted. -/
def ValueTypes.install (T : ValueTypes P) (type : ℕ) (strategy : EvddNormalizeStrategy) :
    ValueTypes P :=
  let fns := { T.fns type with normalizefun := strategy.normalizefun (T.fns type) }
  { T with fns := Function.update T.fns type fns }

/-- `evdd_set_normalization`. -/
def evddSetNormalization (g : ValueRegistry P) (type : ℕ) (strategy : EvddNormalizeStrategy) :
    ValueRegistry P :=
  if type ≥ g.types.typeNumber then { g with errors := .op :: g.errors }
  else if (g.strategy type).isSome then { g with errors := .op :: g.errors }
  else if strategy.ok (g.types.fns type).has then
    { types := g.types.install type strategy
      strategy := Function.update g.strategy type (some strategy)
      errors := g.errors
      custom := fun t ht n hn => by
        have hne : t ≠ type := fun h => by simp [h] at ht
        rw [Function.update_of_ne hne] at ht
        simp only [ValueTypes.install, Function.update_of_ne hne] at hn
        exact g.custom t ht n hn }
  else { g with errors := .op :: g.errors }

/-- One call of a registration function. -/
inductive EvddRegistration (P : Type*)
  | iszero (f : P → Bool)
  | isone (f : P → Bool)
  | mul (f : Option P → Option P → Option P)
  | div (f : Option P → Option P → Option P)
  | add (f : Option P → Option P → Option P)
  | abscmp (f : Option P → Option P → ℤ)
  | absq (f : Option P → Option P)
  | sqrt (f : Option P → Option P)
  | normalize (f : ValueTable P → ValueId → ValueId → EvddNormResult × ValueTable P)

/-- The callback that is registered. -/
def EvddRegistration.callback : EvddRegistration P → EvddCallback
  | .iszero _ => .iszero
  | .isone _ => .isone
  | .mul _ => .mul
  | .div _ => .div
  | .add _ => .add
  | .abscmp _ => .abscmp
  | .absq _ => .absq
  | .sqrt _ => .sqrt
  | .normalize _ => .normalize

/-- What `evdd_register_mul_function` and the others store. -/
def EvddValueFunctions.register (fns : EvddValueFunctions P) :
    EvddRegistration P → EvddValueFunctions P
  | .iszero f => { fns with iszerofun := some f }
  | .isone f => { fns with isonefun := some f }
  | .mul f => { fns with mulfun := some f }
  | .div f => { fns with divfun := some f }
  | .add f => { fns with addfun := some f }
  | .abscmp f => { fns with abscmpfun := some f }
  | .absq f => { fns with absqfun := some f }
  | .sqrt f => { fns with sqrtfun := some f }
  | .normalize f => { fns with normalizefun := some (.custom f) }

def ValueTypes.register (T : ValueTypes P) (type : ℕ) (r : EvddRegistration P) : ValueTypes P :=
  { T with fns := Function.update T.fns type ((T.fns type).register r) }

@[simp] theorem ValueTypes.register_self (T : ValueTypes P) (t : ℕ) (r : EvddRegistration P) :
    (T.register t r).fns t = (T.fns t).register r := Function.update_self ..

theorem ValueTypes.register_of_ne {T : ValueTypes P} {t i : ℕ} {r : EvddRegistration P}
    (hi : i ≠ t) : (T.register t r).fns i = T.fns i := Function.update_of_ne hi ..

@[simp] theorem ValueTypes.install_self (T : ValueTypes P) (t : ℕ)
    (strategy : EvddNormalizeStrategy) : (T.install t strategy).fns t =
      { T.fns t with normalizefun := strategy.normalizefun (T.fns t) } := Function.update_self ..

/-- A strategy takes no callback away. -/
theorem ValueTypes.install_has {T : ValueTypes P} {t : ℕ} (strategy : EvddNormalizeStrategy)
    {k : EvddCallback} (h : (T.fns t).has k = true) :
    ((T.install t strategy).fns t).has k = true := by
  rw [install_self]
  cases k with
  | normalize =>
    cases strategy with
    | custom => exact h
    | _ => rfl
  | _ => exact h

end Model

/-! ## Types that agree on what is called -/

variable {P : Type*} [DecidableEq P] {T T' : ValueTypes P} {V : ValueTable P} {t : ℕ}

/-- Two registrations that differ at most in callbacks that no strategy in use calls. -/
structure AgreesOn (F F' : EvddValueFunctions P) : Prop where
  hash : F'.hashfun = F.hashfun
  cell : F'.cellfun = F.cellfun
  naxes : F'.naxes = F.naxes
  compare : F'.comparefun = F.comparefun
  mul : F'.mulfun = F.mulfun
  div : F'.divfun = F.divfun
  iszero : F'.iszerofun = F.iszerofun
  isone : F'.isonefun = F.isonefun
  normalize : F'.normalizefun = F.normalizefun
  abscmp : F.normalizefun = some .maxMagnitude → F'.abscmpfun = F.abscmpfun
  add : F.normalizefun = some .l2 → F'.addfun = F.addfun
  absq : F.normalizefun = some .l2 → F'.absqfun = F.absqfun
  sqrt : F.normalizefun = some .l2 → F'.sqrtfun = F.sqrtfun

structure Agrees (T T' : ValueTypes P) : Prop where
  typeNumber : T'.typeNumber = T.typeNumber
  on : ∀ t, AgreesOn (T.fns t) (T'.fns t)

/-- An id is bare zero, or a row of the type. -/
def TypedAs (V : ValueTable P) (t : ℕ) (id : ValueId) : Prop :=
  id ≠ evddValueZero → ∃ u, (V.evddValues id).payload = some u ∧ (V.evddValues id).type = t

omit [DecidableEq P] in
theorem TypedAs.ext {V' : ValueTable P} {id : ValueId} (h : TypedAs V t id) (hext : V.Ext V') :
    TypedAs V' t id := by
  intro h0
  obtain ⟨u, hu, ht⟩ := h h0
  rw [hext id (by simp [hu])]
  exact ⟨u, hu, ht⟩

theorem TypedAs.typeOf {id : ValueId} (h : TypedAs V t id) (hV : ValueInv T V)
    (h0 : id ≠ evddValueZero) : evddValueTypeOf V id = some t := by
  obtain ⟨u, hu, ht⟩ := h h0
  rw [(hV.read hu).2.2.1, ht]

/-- The image of a weight under a unary callback, or bare zero. -/
theorem typedAs_internUnary (hV : ValueInv T V) {f : Option (Option P → Option P)} {w : ValueId}
    {r : ValueId × ValueTable P}
    (hr : (if evddValueIsZero T V w then (evddValueZero, V) else internUnary T V f w t) = r) :
    Extends T V r.2 ∧ TypedAs r.2 t r.1 := by
  split at hr
  · rw [← hr]
    exact ⟨.refl hV, fun h0 => absurd rfl h0⟩
  rw [← hr]
  refine ⟨(internUnary_algebraic hV f w t).ext, ?_⟩
  unfold internUnary
  cases f with
  | none => exact fun h0 => absurd rfl h0
  | some f =>
    intro h0
    obtain ⟨-, u, -, hu, ht, -⟩ := (evddValueIntern_spec hV _ t).row h0
    exact ⟨u, hu, ht⟩

namespace Agrees

variable (h : Agrees T T')

include h

theorem compareOf : compareOf T' t = Evdd.compareOf T t := by
  unfold Evdd.compareOf
  rw [(h.on t).compare]

omit [DecidableEq P] in
theorem isZeroPayload (u : P) : isZeroPayload T' t u = Evdd.isZeroPayload T t u := by
  unfold Evdd.isZeroPayload
  rw [(h.on t).iszero]

theorem idxLookup (V : ValueTable P) (k : UInt32) (u : P) :
    evddValueIdxLookup T' V k t u = evddValueIdxLookup T V k t u := by
  have hmatches : idxMatches T' V k t u = idxMatches T V k t u := by
    unfold idxMatches
    rw [h.compareOf]
  unfold evddValueIdxLookup
  rw [hmatches]

theorem findValue (V : ValueTable P) (u : P) : findValue T' V u t = Evdd.findValue T V u t := by
  have hlinear : linearSearch T' V u t = linearSearch T V u t := by
    unfold linearSearch
    rw [h.compareOf]
  have hcell : ∀ base, evddValueCellLookup T' V u t base = evddValueCellLookup T V u t base := by
    intro base
    unfold evddValueCellLookup
    simp only [(h.on t).naxes, h.idxLookup]
  unfold Evdd.findValue
  simp only [(h.on t).cell, (h.on t).hash, hlinear, hcell, h.idxLookup]

theorem intern (V : ValueTable P) (u : Option P) :
    evddValueIntern T' V u t = evddValueIntern T V u t := by
  unfold evddValueIntern
  simp only [h.typeNumber, h.isZeroPayload, h.findValue]

omit [DecidableEq P] in
theorem isZero (V : ValueTable P) (id : ValueId) :
    evddValueIsZero T' V id = evddValueIsZero T V id := by
  unfold evddValueIsZero evddValuePred
  simp only [(h.on _).iszero]

omit [DecidableEq P] in
theorem isOne (V : ValueTable P) (id : ValueId) :
    evddValueIsOne T' V id = evddValueIsOne T V id := by
  unfold evddValueIsOne evddValuePred
  simp only [(h.on _).isone]

theorem applyBinary (V : ValueTable P) (a b : ValueId)
    (f : Option (Option P → Option P → Option P)) :
    evddValueApplyBinary T' V a b f t = evddValueApplyBinary T V a b f t := by
  unfold evddValueApplyBinary
  simp only [h.intern]

theorem mul (V : ValueTable P) (a b : ValueId) : evddValueMul T' V a b = evddValueMul T V a b := by
  unfold evddValueMul evddValueCall
  simp only [h.isZero, h.isOne, h.applyBinary, (h.on _).mul]

theorem div (V : ValueTable P) (a b : ValueId) : evddValueDiv T' V a b = evddValueDiv T V a b := by
  unfold evddValueDiv evddValueCall
  simp only [h.isZero, h.isOne, h.applyBinary, (h.on _).div]

theorem unit (V : ValueTable P) (w : ValueId) : evddValueUnit T' V w = evddValueUnit T V w := by
  unfold evddValueUnit
  simp only [h.isZero, h.div]

theorem unitFromPair (V : ValueTable P) (a b : ValueId) :
    evddValueUnitFromPair T' V a b = evddValueUnitFromPair T V a b := by
  unfold evddValueUnitFromPair
  simp only [h.isZero, h.unit]

theorem normFirstNonzero (V : ValueTable P) (a b : ValueId) :
    evddNormFirstNonzero T' V a b = evddNormFirstNonzero T V a b := by
  unfold evddNormFirstNonzero
  simp only [h.isZero, h.unit, h.div]

theorem normLow (V : ValueTable P) (a b : ValueId) :
    evddNormLow T' V a b = evddNormLow T V a b := by
  unfold evddNormLow
  simp only [h.isZero, h.unit, h.div]

omit [DecidableEq P] in
theorem maxMagnitudeFactor {V : ValueTable P} {a b : ValueId}
    (hr : evddValueResolveType V a b = (some (some t), V))
    (ht : (T.fns t).normalizefun = some .maxMagnitude) :
    maxMagnitudeFactor T' V a b = Evdd.maxMagnitudeFactor T V a b := by
  unfold Evdd.maxMagnitudeFactor
  simp only [h.isZero, hr, (h.on t).abscmp ht]

theorem normMaxMagnitude {V : ValueTable P} {a b : ValueId}
    (hr : evddValueResolveType V a b = (some (some t), V))
    (ht : (T.fns t).normalizefun = some .maxMagnitude) :
    evddNormMaxMagnitude T' V a b = evddNormMaxMagnitude T V a b := by
  unfold evddNormMaxMagnitude
  simp only [h.isZero, h.maxMagnitudeFactor hr ht, h.div]

/-- Weights of a type with an addition in common. -/
theorem add {V : ValueTable P} {a b : ValueId} (ha : a ≠ 0 → evddValueTypeOf V a = some t)
    (hb : b ≠ 0 → evddValueTypeOf V b = some t) (ht : (T.fns t).normalizefun = some .l2) :
    evddValueAdd T' V a b = evddValueAdd T V a b := by
  unfold evddValueAdd
  simp only [h.isZero]
  by_cases hza : evddValueIsZero T V a = true
  · rw [if_pos hza, if_pos hza]
  by_cases hzb : evddValueIsZero T V b = true
  · rw [if_neg hza, if_neg hza, if_pos hzb, if_pos hzb]
  have ha0 : a ≠ 0 := fun h0 => hza (by simp [evddValueIsZero, h0])
  have hb0 : b ≠ 0 := fun h0 => hzb (by simp [evddValueIsZero, h0])
  unfold evddValueCall evddValueResolveType
  simp [ha ha0, hb hb0, (h.on t).add ht, h.applyBinary]

theorem internUnary (V : ValueTable P) (f : Option (Option P → Option P)) (w : ValueId) :
    internUnary T' V f w t = Evdd.internUnary T V f w t := by
  unfold Evdd.internUnary
  simp only [h.intern]

theorem normL2 (hV : ValueInv T V) {a b : ValueId}
    (hr : evddValueResolveType V a b = (some (some t), V))
    (ht : (T.fns t).normalizefun = some .l2) : evddNormL2 T' V a b = evddNormL2 T V a b := by
  unfold evddNormL2
  rw [hr]
  simp only [h.isZero, h.internUnary, (h.on t).absq ht, (h.on t).sqrt ht, h.div]
  -- the two squares are interned as values of the type
  generalize hsq0 : (if evddValueIsZero T V a then (evddValueZero, V)
    else Evdd.internUnary T V (T.fns t).absqfun a t) = sq0
  generalize hsq1 : (if evddValueIsZero T sq0.2 b then (evddValueZero, sq0.2)
    else Evdd.internUnary T sq0.2 (T.fns t).absqfun b t) = sq1
  obtain ⟨he0, hty0⟩ := typedAs_internUnary hV hsq0
  obtain ⟨he1, hty1⟩ := typedAs_internUnary he0.inv hsq1
  rw [h.add ((hty0.ext he1.ext).typeOf he1.inv) (hty1.typeOf he1.inv) ht]

theorem normalize (hV : ValueInv T V) (a b : ValueId) :
    evddValueNormalize T' V a b = evddValueNormalize T V a b := by
  unfold evddValueNormalize
  simp only [h.isZero, h.unitFromPair]
  have hV₁ := (evddValueUnitFromPair_algebraic hV a b).ext.inv
  generalize evddValueUnitFromPair T V a b = u at hV₁ ⊢
  rcases hres : evddValueResolveType u.2 a b with ⟨_ | _ | t, V₁⟩
  · rfl
  · rfl
  have hV₁' : V₁ = u.2 := by
    unfold evddValueResolveType at hres
    grind
  subst hV₁'
  simp only [(h.on t).normalize]
  cases hn : (T.fns t).normalizefun with
  | none => rfl
  | some strategy =>
    cases strategy with
    | firstNonzero => simp only [h.normFirstNonzero]
    | low => simp only [h.normLow]
    | maxMagnitude => simp only [h.normMaxMagnitude hres hn]
    | l2 => simp only [h.normL2 hV₁ hres hn]
    | custom f => rfl

theorem makenodeRaw (E : Policy P) (s : EvddState P) (level : ℕ) (low high : EVDD) :
    evddMakenodeRaw T' E s level low high = evddMakenodeRaw T E s level low high := by
  unfold evddMakenodeRaw
  simp only [h.unitFromPair]

theorem makenode (E : Policy P) {s : EvddState P} (hV : ValueInv T s.values) (level : ℕ)
    (low high : EVDD) : evddMakenode T' E s level low high = evddMakenode T E s level low high := by
  have hpushed : evddValueNormalize T' ((s.pushref low.node).pushref high.node).values low.w high.w =
      evddValueNormalize T ((s.pushref low.node).pushref high.node).values low.w high.w :=
    h.normalize hV low.w high.w
  unfold evddMakenode EvddState.withValues
  simp only [h.isZero, h.makenodeRaw, h.mul, hpushed]

end Agrees

/-! ## What a strategy needs -/

/-- The callbacks that calls on weights with a strategy come to. -/
def EvddNormalizeStrategy.uses : EvddNormalizeStrategy → EvddCallback → Bool
  | _, .iszero | _, .isone | _, .mul | _, .div => true
  | s, .abscmp => s = .maxMagnitude
  | s, .add | s, .absq | s, .sqrt => s = .l2
  | s, .normalize => s = .custom

/-- No call on weights of type `t` notices that a callback is absent: it does what it does with
the callback registered, whatever that computes. -/
def NeverMisses (T : ValueTypes P) (t : ℕ) (k : EvddCallback) : Prop :=
  ∀ r : EvddRegistration P, r.callback = k → (T.fns t).has k = false →
    (∀ V, ValueInv T V → ∀ a b, TypedAs V t a → TypedAs V t b →
      evddValueNormalize (T.register t r) V a b = evddValueNormalize T V a b) ∧
    ∀ E s level low high, ValueInv T s.values →
      TypedAs s.values t low.w → TypedAs s.values t high.w →
      evddMakenode (T.register t r) E s level low high = evddMakenode T E s level low high

/-- For a strategy and a set of registered callbacks: whichever type of weights it is, once the
strategy is accepted no call notices that a callback is absent. -/
def AcceptedNeverMisses (strategy : EvddNormalizeStrategy) (registered : EvddCallback → Bool)
    (k : EvddCallback) : Prop :=
  ∀ (P : Type) [DecidableEq P] (g : ValueRegistry P) (t : ℕ), t < g.types.typeNumber →
    g.strategy t = none → (∀ c, (g.types.fns t).has c = registered c) →
    (evddSetNormalization g t strategy).strategy t = some strategy →
    NeverMisses (evddSetNormalization g t strategy).types t k

omit [DecidableEq P] in
theorem evddSetNormalization_of_ok {g : ValueRegistry P} {strategy : EvddNormalizeStrategy}
    (ht : t < g.types.typeNumber) (hfrozen : g.strategy t = none)
    (hok : strategy.ok (g.types.fns t).has = true) :
    (evddSetNormalization g t strategy).strategy t = some strategy ∧
      (evddSetNormalization g t strategy).types = g.types.install t strategy := by
  rw [evddSetNormalization, if_neg (by omega), if_neg (by simp [hfrozen]), if_pos hok]
  exact ⟨Function.update_self .., rfl⟩

omit [DecidableEq P] in
/-- A strategy is accepted exactly if the callbacks that are asked for are there. -/
theorem evddSetNormalization_accepts_iff {g : ValueRegistry P} {strategy : EvddNormalizeStrategy}
    (ht : t < g.types.typeNumber) (hfrozen : g.strategy t = none) :
    (evddSetNormalization g t strategy).strategy t = some strategy ↔
      strategy.ok (g.types.fns t).has = true := by
  constructor
  · intro h
    by_contra hok
    rw [evddSetNormalization, if_neg (by omega), if_neg (by simp [hfrozen]), if_neg hok] at h
    simp [hfrozen] at h
  · exact fun hok => (evddSetNormalization_of_ok ht hfrozen hok).1

omit [DecidableEq P] in
/-- Only a strategy itself installs its function. -/
theorem normalizefun_builtin {fns : EvddValueFunctions P} (strategy : EvddNormalizeStrategy)
    (hcustom : ∀ n, fns.normalizefun = some n → ∃ f, n = .custom f) :
    (strategy.normalizefun fns = some .l2 → strategy = .l2) ∧
      (strategy.normalizefun fns = some .maxMagnitude → strategy = .maxMagnitude) ∧
      (strategy ≠ .custom → (strategy.normalizefun fns).isSome = true) := by
  cases strategy with
  | custom =>
    refine ⟨fun h => ?_, fun h => ?_, fun h => absurd rfl h⟩
    · obtain ⟨f, hf⟩ := hcustom _ h
      nomatch hf
    · obtain ⟨f, hf⟩ := hcustom _ h
      nomatch hf
  | _ => simp [EvddNormalizeStrategy.normalizefun]

omit [DecidableEq P] in
/-- A callback that is not registered and not used. -/
theorem agreesOn_register {F : EvddValueFunctions P} {strategy : EvddNormalizeStrategy}
    {r : EvddRegistration P} (hl2 : F.normalizefun = some .l2 → strategy = .l2)
    (hmax : F.normalizefun = some .maxMagnitude → strategy = .maxMagnitude)
    (hbuiltin : strategy ≠ .custom → F.normalizefun.isSome = true)
    (habsent : F.has r.callback = false) (hunused : strategy.uses r.callback = false) :
    AgreesOn F (F.register r) := by
  cases r with
  | iszero f => nomatch hunused
  | isone f => nomatch hunused
  | mul f => nomatch hunused
  | div f => nomatch hunused
  | add f =>
    have hne : F.normalizefun ≠ some .l2 := fun h => of_decide_eq_false hunused (hl2 h)
    constructor <;> simp [EvddValueFunctions.register, hne]
  | absq f =>
    have hne : F.normalizefun ≠ some .l2 := fun h => of_decide_eq_false hunused (hl2 h)
    constructor <;> simp [EvddValueFunctions.register, hne]
  | sqrt f =>
    have hne : F.normalizefun ≠ some .l2 := fun h => of_decide_eq_false hunused (hl2 h)
    constructor <;> simp [EvddValueFunctions.register, hne]
  | abscmp f =>
    have hne : F.normalizefun ≠ some .maxMagnitude := fun h =>
      of_decide_eq_false hunused (hmax h)
    constructor <;> simp [EvddValueFunctions.register, hne]
  | normalize f =>
    have hsome := hbuiltin (of_decide_eq_false hunused)
    exact absurd habsent (by simp [EvddRegistration.callback, EvddValueFunctions.has, hsome])

omit [DecidableEq P] in
theorem agrees_register {strategy : EvddNormalizeStrategy} {r : EvddRegistration P}
    (hcustom : ∀ n, (T.fns t).normalizefun = some n → ∃ f, n = .custom f)
    (habsent : ((T.install t strategy).fns t).has r.callback = false)
    (hunused : strategy.uses r.callback = false) :
    Agrees (T.install t strategy) ((T.install t strategy).register t r) := by
  obtain ⟨hl2, hmax, hbuiltin⟩ := normalizefun_builtin strategy hcustom
  have hn : ((T.install t strategy).fns t).normalizefun = strategy.normalizefun (T.fns t) := by
    simp [ValueTypes.install]
  rw [← hn] at hl2 hmax hbuiltin
  refine ⟨rfl, fun i => ?_⟩
  by_cases hi : i = t
  · rw [hi, ValueTypes.register_self]
    exact agreesOn_register hl2 hmax hbuiltin habsent hunused
  · rw [ValueTypes.register_of_ne hi]
    constructor <;> simp

/-- A callback that is asked for or not used is never missed. -/
theorem acceptedNeverMisses {strategy : EvddNormalizeStrategy} {registered : EvddCallback → Bool}
    {k : EvddCallback} (h : strategy.ok registered = true → strategy.uses k = true →
      registered k = true) : AcceptedNeverMisses strategy registered k := by
  intro P _ g t ht hfrozen hreg hacc r hk habsent
  have hok := (evddSetNormalization_accepts_iff ht hfrozen).mp hacc
  rw [funext hreg] at hok
  rw [(evddSetNormalization_of_ok ht hfrozen (by rwa [funext hreg])).2] at habsent ⊢
  have hunused : strategy.uses k = false := by
    by_contra huse
    rw [Bool.not_eq_false] at huse
    have hthere := h hok huse
    rw [← hreg k] at hthere
    rw [ValueTypes.install_has strategy hthere] at habsent
    exact nomatch habsent
  rw [← hk] at habsent hunused
  have hagree := agrees_register (g.custom t hfrozen) habsent hunused
  exact ⟨fun V hV a b _ _ => hagree.normalize hV a b,
    fun E s level low high hV _ _ => hagree.makenode E hV level low high⟩

/-! ## Callbacks that are not asked for -/

/-- The callbacks of a type that are in a set. -/
def EvddValueFunctions.restrict (F : EvddValueFunctions P) (registered : EvddCallback → Bool) :
    EvddValueFunctions P :=
  { F with
    iszerofun := if registered .iszero then F.iszerofun else none
    isonefun := if registered .isone then F.isonefun else none
    mulfun := if registered .mul then F.mulfun else none
    divfun := if registered .div then F.divfun else none
    addfun := if registered .add then F.addfun else none
    abscmpfun := if registered .abscmp then F.abscmpfun else none
    absqfun := if registered .absq then F.absqfun else none
    sqrtfun := if registered .sqrt then F.sqrtfun else none
    normalizefun := if registered .normalize then F.normalizefun else none }

/-- Rational weights with some of the callbacks; the one for normalisation keeps both weights
and pulls the low one. -/
def ratRegistry (registered : EvddCallback → Bool) : ValueRegistry ℚ where
  types := ⟨1, fun _ => (ratFunctions (.custom fun V a b => (⟨a, b, a⟩, V))).restrict registered⟩
  strategy _ := none
  errors := []
  custom _ _ n hn := by
    simp only [EvddValueFunctions.restrict] at hn
    split at hn
    · exact ⟨_, (Option.some.inj hn).symm⟩
    · nomatch hn

/-- What is seen of two calls on one weight: `evdd_value_normalize` with bare zero for the other
edge, and `evdd_makenode` on equal edges. -/
def ratCalls (T : ValueTypes ℚ) (w : ValueId × ValueTable ℚ) : EvddNormResult × ℕ × ℕ × ℕ :=
  let N := evddValueNormalize T w.2 w.1 evddValueZero
  let r := evddMakenode T ratPolicy { ratSession with values := w.2 } 5 ⟨0, w.1⟩ ⟨0, w.1⟩
  (N.1, N.2.evddValueUsed, N.2.errors.length, r.2.values.errors.length)

/-- A registration in place of a missing callback that shows. -/
def ratMissing : EvddCallback → EvddRegistration ℚ
  | .iszero => .iszero fun _ => true
  | .isone => .isone fun _ => true
  | .mul => .mul (ratBinary (· * ·))
  | .div => .div (ratBinary (· / ·))
  | .add => .add (ratBinary (· + ·))
  | .abscmp => .abscmp fun _ _ => 0
  | .absq => .absq id
  | .sqrt => .sqrt id
  | .normalize => .normalize fun V a b => (⟨a, b, a⟩, V)

/-- Every set of callbacks. -/
def callbackSet (iszero isone mul div add abscmp absq sqrt normalize : Bool) :
    EvddCallback → Bool
  | .iszero => iszero
  | .isone => isone
  | .mul => mul
  | .div => div
  | .add => add
  | .abscmp => abscmp
  | .absq => absq
  | .sqrt => sqrt
  | .normalize => normalize

theorem callbackSet_eq (registered : EvddCallback → Bool) :
    callbackSet (registered .iszero) (registered .isone) (registered .mul) (registered .div)
      (registered .add) (registered .abscmp) (registered .absq) (registered .sqrt)
      (registered .normalize) = registered := by
  funext k
  cases k <;> rfl

/-- The type of rational weights once a strategy was accepted for it, without a callback that
shows in the calls. -/
abbrev ShowsMissing (strategy : EvddNormalizeStrategy) (k : EvddCallback)
    (registered : EvddCallback → Bool) : Prop :=
  let T := (ratRegistry registered).types.install 0 strategy
  let w := evddValueIntern T .empty (some 3) 0
  ratCalls (T.register 0 (ratMissing k)) w ≠ ratCalls T w

theorem showsMissing_builtin :
    (∀ add absq sqrt normalize,
      (∀ abscmp, ShowsMissing .firstNonzero .isone
        (callbackSet true false true true add abscmp absq sqrt normalize)) ∧
      (∀ abscmp, ShowsMissing .low .isone
        (callbackSet true false true true add abscmp absq sqrt normalize)) ∧
      ShowsMissing .maxMagnitude .isone
        (callbackSet true false true true add true absq sqrt normalize)) ∧
    ∀ abscmp normalize,
      (∀ iszero mul, ShowsMissing .l2 .isone
        (callbackSet iszero false mul true true abscmp true true normalize)) ∧
      (∀ isone mul, ShowsMissing .l2 .iszero
        (callbackSet false isone mul true true abscmp true true normalize)) ∧
      ∀ iszero isone, ShowsMissing .l2 .mul
        (callbackSet iszero isone false true true abscmp true true normalize) := by
  decide +kernel

theorem showsMissing_custom : ∀ add abscmp absq sqrt,
    (∀ iszero mul div, ShowsMissing .custom .isone
      (callbackSet iszero false mul div add abscmp absq sqrt true)) ∧
    (∀ isone mul div, ShowsMissing .custom .iszero
      (callbackSet false isone mul div add abscmp absq sqrt true)) ∧
    (∀ iszero isone div, ShowsMissing .custom .mul
      (callbackSet iszero isone false div add abscmp absq sqrt true)) ∧
    ∀ iszero isone mul, ShowsMissing .custom .div
      (callbackSet iszero isone mul false add abscmp absq sqrt true) := by
  decide +kernel

/-- A callback that a strategy uses and that is not asked for shows where it is absent. -/
theorem showsMissing {strategy : EvddNormalizeStrategy} {registered : EvddCallback → Bool}
    {k : EvddCallback} (hok : strategy.ok registered = true) (huse : strategy.uses k = true)
    (habsent : registered k = false) : ShowsMissing strategy k registered := by
  rw [← callbackSet_eq registered]
  -- what is asked for is not absent: this leaves ten of the pairs
  cases strategy <;> cases k <;>
    simp only [EvddNormalizeStrategy.ok, EvddNormalizeStrategy.uses, Bool.and_eq_true,
      decide_eq_true_eq, reduceCtorEq, habsent, and_false, false_and] at hok huse
  case firstNonzero.isone =>
    rw [hok.1.1, hok.1.2, hok.2, habsent]
    exact (showsMissing_builtin.1 _ _ _ _).1 _
  case low.isone =>
    rw [hok.1.1, hok.1.2, hok.2, habsent]
    exact (showsMissing_builtin.1 _ _ _ _).2.1 _
  case maxMagnitude.isone =>
    rw [hok.1.1.1, hok.1.1.2, hok.1.2, hok.2, habsent]
    exact (showsMissing_builtin.1 _ _ _ _).2.2
  case l2.isone =>
    rw [hok.1.1.1, hok.1.1.2, hok.1.2, hok.2, habsent]
    exact (showsMissing_builtin.2 _ _).1 _ _
  case l2.iszero =>
    rw [hok.1.1.1, hok.1.1.2, hok.1.2, hok.2, habsent]
    exact (showsMissing_builtin.2 _ _).2.1 _ _
  case l2.mul =>
    rw [hok.1.1.1, hok.1.1.2, hok.1.2, hok.2, habsent]
    exact (showsMissing_builtin.2 _ _).2.2 _ _
  case custom.isone =>
    rw [hok, habsent]
    exact (showsMissing_custom _ _ _ _).1 _ _ _
  case custom.iszero =>
    rw [hok, habsent]
    exact (showsMissing_custom _ _ _ _).2.1 _ _ _
  case custom.mul =>
    rw [hok, habsent]
    exact (showsMissing_custom _ _ _ _).2.2.1 _ _ _
  case custom.div =>
    rw [hok, habsent]
    exact (showsMissing_custom _ _ _ _).2.2.2 _ _ _

/-- The two calls on a table with one value. -/
theorem ratCalls_of_neverMisses {T : ValueTypes ℚ} {k : EvddCallback} (h : NeverMisses T 0 k)
    (habsent : (T.fns 0).has k = false) :
    let w := evddValueIntern T .empty (some 3) 0
    ratCalls (T.register 0 (ratMissing k)) w = ratCalls T w := by
  intro w
  have hk : (ratMissing k).callback = k := by cases k <;> rfl
  have hspec := evddValueIntern_spec (ValueInv.empty T) (some 3) 0
  obtain ⟨hnormalize, hmakenode⟩ := h (ratMissing k) hk habsent
  have hzero : TypedAs w.2 0 evddValueZero := fun h0 => absurd rfl h0
  have hw : TypedAs w.2 0 w.1 := by
    intro h0
    obtain ⟨-, u, -, hu, ht, -⟩ := hspec.row h0
    exact ⟨u, hu, ht⟩
  unfold ratCalls
  rw [hnormalize w.2 hspec.inv w.1 evddValueZero hw hzero, hmakenode _ _ _ _ _ hspec.inv hw hw]

/-- Exactly the callbacks that a strategy uses and that are neither asked for nor registered
are missed. -/
theorem acceptedNeverMisses_iff (strategy : EvddNormalizeStrategy)
    (registered : EvddCallback → Bool) (k : EvddCallback) :
    AcceptedNeverMisses strategy registered k ↔
      (strategy.ok registered = true → strategy.uses k = true → registered k = true) := by
  constructor
  · intro h hok huse
    by_contra habsent
    rw [Bool.not_eq_true] at habsent
    have hhas : ∀ c, ((ratRegistry registered).types.fns 0).has c = registered c := by
      intro c
      simp only [ratRegistry, EvddValueFunctions.restrict, ratFunctions]
      cases c <;> simp [EvddValueFunctions.has] <;> split <;> simp_all
    have hok' : strategy.ok ((ratRegistry registered).types.fns 0).has = true := by
      rwa [funext hhas]
    obtain ⟨hacc, htypes⟩ := evddSetNormalization_of_ok (g := ratRegistry registered) (t := 0)
      Nat.one_pos rfl hok'
    have hmisses := h ℚ (ratRegistry registered) 0 Nat.one_pos rfl hhas hacc
    rw [htypes] at hmisses
    refine showsMissing hok huse habsent (ratCalls_of_neverMisses hmisses ?_)
    have hnot : k = .normalize → strategy ≠ .custom := by
      rintro rfl rfl
      exact Bool.false_ne_true (habsent.symm.trans hok)
    cases k with
    | normalize => exact absurd (of_decide_eq_true huse) (hnot rfl)
    | _ =>
      rw [ValueTypes.install_self]
      exact (hhas _).trans habsent
  · exact acceptedNeverMisses

/-- Whichever callbacks one counts: none of them is missed exactly if those that the strategy
uses are registered. -/
theorem evddSetNormalization_neverMisses_iff (strategy : EvddNormalizeStrategy)
    (registered : EvddCallback → Bool) (counted : Set EvddCallback) :
    (∀ k ∈ counted, AcceptedNeverMisses strategy registered k) ↔
      (strategy.ok registered = true →
        ∀ k ∈ counted, strategy.uses k = true → registered k = true) := by
  simp only [acceptedNeverMisses_iff]
  exact ⟨fun h hok k hk => h k hk hok, fun h k hk hok => h hok k hk⟩

/-- `EVDD_NORMALIZE_L2` is accepted without a multiplication, and `evdd_makenode` on equal edges
reports that it is not there. -/
theorem evddSetNormalization_l2_misses_mul :
    let registered := callbackSet true true false true true false true true false
    let g := evddSetNormalization (ratRegistry registered) 0 .l2
    let w := evddValueIntern g.types .empty (some 3) 0
    let r := evddMakenode g.types ratPolicy { ratSession with values := w.2 } 5 ⟨0, w.1⟩ ⟨0, w.1⟩
    g.strategy 0 = some .l2 ∧ r.2.values.errors = [.op] ∧ r.1.w = evddValueZero ∧
      ¬ ∀ k, AcceptedNeverMisses .l2 registered k := by
  refine ⟨by decide, by decide +kernel, by decide +kernel, fun h => ?_⟩
  have hmul := (acceptedNeverMisses_iff _ _ _).mp (h .mul) (by decide) (by decide)
  exact absurd hmul (by decide)

end MoToBuddy.Evdd
