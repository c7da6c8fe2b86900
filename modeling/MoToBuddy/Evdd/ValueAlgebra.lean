import MoToBuddy.Evdd.ValueIntern

/-!
# The algebra on interned ids keeps the table

Every operation of the algebra ends in `evdd_value_intern`: it keeps the invariant and the
rows (`Extends`), and it returns a valid id when its operands are valid. User callbacks that
reach the table are assumed to do the same (`LawfulNormalize`, `LawfulOp`).
-/

namespace MoToBuddy.Evdd

variable {P : Type*} [DecidableEq P] {T : ValueTypes P} {V V' V'' : ValueTable P}

/-- The bare zero or the id of a live row. -/
def ValueTable.Valid (V : ValueTable P) (id : ValueId) : Prop :=
  id = evddValueZero ∨ (V.evddValues id).payload.isSome = true

/-- `V'` keeps the invariant and the rows of `V`. -/
structure Extends (T : ValueTypes P) (V V' : ValueTable P) : Prop where
  inv : ValueInv T V'
  ext : V.Ext V'

omit [DecidableEq P] in
theorem ValueTable.valid_zero (V : ValueTable P) : V.Valid evddValueZero := Or.inl rfl

omit [DecidableEq P] in
theorem ValueTable.Ext.valid (h : V.Ext V') {id : ValueId} (hid : V.Valid id) : V'.Valid id :=
  hid.imp_right fun hp => by rw [h _ hp]; exact hp

theorem Extends.refl (hV : ValueInv T V) : Extends T V V := ⟨hV, .refl V⟩

theorem Extends.trans (h : Extends T V V') (h' : Extends T V' V'') : Extends T V V'' :=
  ⟨h'.inv, h.ext.trans h'.ext⟩

theorem Extends.valid (h : Extends T V V') {id : ValueId} (hid : V.Valid id) : V'.Valid id :=
  h.ext.valid hid

theorem Extends.error (hV : ValueInv T V) (e : BddError) : Extends T V (V.error e) :=
  ⟨ValueTable.error_inv hV e, .refl V⟩

theorem evddValueIntern_extends (hV : ValueInv T V) (value : Option P) (type : ℕ) :
    Extends T V (evddValueIntern T V value type).2 :=
  ⟨(evddValueIntern_spec hV value type).inv, (evddValueIntern_spec hV value type).ext⟩

theorem evddValueIntern_valid (hV : ValueInv T V) (value : Option P) (type : ℕ) :
    (evddValueIntern T V value type).2.Valid (evddValueIntern T V value type).1 := by
  by_cases h0 : (evddValueIntern T V value type).1 = 0
  · exact Or.inl h0
  · obtain ⟨v, u, -, hu, -⟩ := (evddValueIntern_spec hV value type).row h0
    exact Or.inr (by rw [hu]; rfl)

/-! ## The binary operations -/

theorem evddValueResolveType_extends (hV : ValueInv T V) (a b : ValueId) :
    Extends T V (evddValueResolveType V a b).2 := by
  rw [evddValueResolveType]
  split
  · split
    · exact .error hV _
    · exact .refl hV
  · exact .refl hV
  · exact .refl hV

/-- A result of the algebra: the table is kept, and valid operands give a valid id. -/
structure Algebraic (T : ValueTypes P) (V : ValueTable P) (operands : List ValueId)
    (r : ValueId × ValueTable P) : Prop where
  ext : Extends T V r.2
  valid : (∀ id ∈ operands, V.Valid id) → r.2.Valid r.1

theorem Algebraic.zero (l : List ValueId) (h : Extends T V V') :
    Algebraic T V l (evddValueZero, V') := ⟨h, fun _ => V'.valid_zero⟩

theorem Algebraic.operand {l : List ValueId} {id : ValueId} (hV : ValueInv T V) (hid : id ∈ l) :
    Algebraic T V l (id, V) := ⟨.refl hV, fun h => h id hid⟩

theorem evddValueCall_algebraic (hV : ValueInv T V) (a b : ValueId)
    (f : EvddValueFunctions P → Option (Option P → Option P → Option P)) :
    Algebraic T V [a, b] (evddValueCall T V a b f) := by
  have hr := evddValueResolveType_extends hV a b
  rw [evddValueCall]
  split
  · rename_i t V' heq
    rw [heq] at hr
    simp only [evddValueApplyBinary]
    split
    · exact .zero _ (hr.trans (.error hr.inv _))
    · exact ⟨hr.trans (evddValueIntern_extends hr.inv _ _), fun _ =>
        evddValueIntern_valid hr.inv _ _⟩
  · rename_i V' _ heq
    rw [heq] at hr
    exact .zero _ hr

theorem evddValueMul_algebraic (hV : ValueInv T V) (a b : ValueId) :
    Algebraic T V [a, b] (evddValueMul T V a b) := by
  rw [evddValueMul]
  split
  · exact .zero _ (.refl hV)
  split
  · exact .operand hV (by simp)
  split
  · exact .operand hV (by simp)
  · exact evddValueCall_algebraic hV a b _

theorem evddValueDiv_algebraic (hV : ValueInv T V) (a b : ValueId) :
    Algebraic T V [a, b] (evddValueDiv T V a b) := by
  rw [evddValueDiv]
  split
  · exact .zero _ (.error hV _)
  split
  · exact .zero _ (.refl hV)
  split
  · exact .operand hV (by simp)
  · exact evddValueCall_algebraic hV a b _

theorem evddValueAdd_algebraic (hV : ValueInv T V) (a b : ValueId) :
    Algebraic T V [a, b] (evddValueAdd T V a b) := by
  rw [evddValueAdd]
  split
  · exact .operand hV (by simp)
  split
  · exact .operand hV (by simp)
  · exact evddValueCall_algebraic hV a b _

theorem evddValueUnit_algebraic (hV : ValueInv T V) (w : ValueId) :
    Algebraic T V [w, w] (evddValueUnit T V w) := by
  rw [evddValueUnit]
  split
  · exact .zero _ (.refl hV)
  · exact evddValueDiv_algebraic hV w w

/-- Fewer operands have to be valid. -/
theorem Algebraic.mono {l l' : List ValueId} {r : ValueId × ValueTable P}
    (h : Algebraic T V l r) (hl : l ⊆ l') : Algebraic T V l' r :=
  ⟨h.ext, fun hv => h.valid fun id hid => hv id (hl hid)⟩

theorem evddValueUnitFromPair_algebraic (hV : ValueInv T V) (a b : ValueId) :
    Algebraic T V [a, b] (evddValueUnitFromPair T V a b) := by
  rw [evddValueUnitFromPair]
  split
  · exact (evddValueUnit_algebraic hV a).mono (by simp)
  split
  · exact (evddValueUnit_algebraic hV b).mono (by simp)
  · exact .zero _ (.refl hV)

/-! ## Normalisation -/

/-- A normalisation result: the table is kept, and valid weights give valid weights. -/
structure Normalizes (T : ValueTypes P) (V : ValueTable P) (wLow wHigh : ValueId)
    (r : EvddNormResult × ValueTable P) : Prop where
  ext : Extends T V r.2
  valid : V.Valid wLow → V.Valid wHigh →
    r.2.Valid r.1.wLow ∧ r.2.Valid r.1.wHigh ∧ r.2.Valid r.1.incoming

/-- User callbacks for normalisation only use the public interface of the table. -/
def LawfulNormalize (T : ValueTypes P) : Prop :=
  ∀ type f, (T.fns type).normalizefun = some (.custom f) → ∀ V, ValueInv T V →
    ∀ wLow wHigh, Normalizes T V wLow wHigh (f V wLow wHigh)

/-- An operation passed to `evdd_apply` that only uses the public interface of the table. -/
def LawfulOp (T : ValueTypes P)
    (f : ValueTable P → ValueId → ValueId → ValueId × ValueTable P) : Prop :=
  ∀ V, ValueInv T V → ∀ a b, Algebraic T V [a, b] (f V a b)

/-- Two operations in a row, both on the given weights. -/
theorem Algebraic.next {l l' : List ValueId} {r : ValueId × ValueTable P}
    {r' : ValueId × ValueTable P} (h : Algebraic T V l r) (h' : Algebraic T r.2 l' r')
    (hl : l' ⊆ l) : Algebraic T V l r' ∧ ((∀ id ∈ l, V.Valid id) → r'.2.Valid r.1) :=
  ⟨⟨h.ext.trans h'.ext, fun hv => h'.valid fun id hid => h.ext.valid (hv id (hl hid))⟩,
    fun hv => h'.ext.valid (h.valid hv)⟩

theorem Normalizes.zeros (hV : ValueInv T V) (wLow wHigh : ValueId) :
    Normalizes T V wLow wHigh (evddNormZeros, V) :=
  ⟨.refl hV, fun _ _ => ⟨V.valid_zero, V.valid_zero, V.valid_zero⟩⟩

omit [DecidableEq P] in
theorem valid_pair {wLow wHigh : ValueId} (hl : V.Valid wLow) (hh : V.Valid wHigh) :
    ∀ id ∈ [wLow, wHigh], V.Valid id := by
  intro id hid
  rcases List.mem_pair.mp hid with rfl | rfl
  · exact hl
  · exact hh

theorem evddNormFirstNonzero_spec (hV : ValueInv T V) (wLow wHigh : ValueId) :
    Normalizes T V wLow wHigh (evddNormFirstNonzero T V wLow wHigh) := by
  rw [evddNormFirstNonzero]
  split
  · exact .zeros hV _ _
  split
  · have hu := evddValueUnit_algebraic hV wLow
    have hd := evddValueDiv_algebraic hu.ext.inv wHigh wLow
    refine ⟨hu.ext.trans hd.ext, fun hl hh => ?_⟩
    have hext := hu.ext.trans hd.ext
    exact ⟨hd.ext.valid (hu.valid (valid_pair hl hl)),
      hd.valid (valid_pair (hu.ext.valid hh) (hu.ext.valid hl)), hext.valid hl⟩
  · have hu := evddValueUnit_algebraic hV wHigh
    exact ⟨hu.ext, fun _ hh => ⟨ValueTable.valid_zero _, hu.valid (valid_pair hh hh),
      hu.ext.valid hh⟩⟩

theorem evddNormLow_spec (hV : ValueInv T V) (wLow wHigh : ValueId) :
    Normalizes T V wLow wHigh (evddNormLow T V wLow wHigh) := by
  rw [evddNormLow]
  split
  · exact .zeros hV _ _
  split
  · have hu := evddValueUnit_algebraic hV wHigh
    exact ⟨hu.ext, fun _ hh => ⟨ValueTable.valid_zero _, hu.ext.valid hh,
      hu.valid (valid_pair hh hh)⟩⟩
  · have hu := evddValueUnit_algebraic hV wLow
    have hd := evddValueDiv_algebraic hu.ext.inv wHigh wLow
    refine ⟨hu.ext.trans hd.ext, fun hl hh => ?_⟩
    have hext := hu.ext.trans hd.ext
    exact ⟨hd.ext.valid (hu.valid (valid_pair hl hl)),
      hd.valid (valid_pair (hu.ext.valid hh) (hu.ext.valid hl)), hext.valid hl⟩

theorem maxMagnitudeFactor_extends (hV : ValueInv T V) (wLow wHigh : ValueId) :
    Extends T V (maxMagnitudeFactor T V wLow wHigh).2 ∧
      ((maxMagnitudeFactor T V wLow wHigh).1 = wLow ∨
        (maxMagnitudeFactor T V wLow wHigh).1 = wHigh) := by
  have hr := evddValueResolveType_extends hV wLow wHigh
  rw [maxMagnitudeFactor]
  split
  · exact ⟨.refl hV, Or.inr rfl⟩
  split
  · exact ⟨.refl hV, Or.inl rfl⟩
  split
  · rename_i heq
    rw [heq] at hr
    split
    · exact ⟨hr, Or.inl rfl⟩
    · refine ⟨hr, ?_⟩
      simp only
      split
      · exact Or.inl rfl
      · exact Or.inr rfl
  · rename_i heq
    rw [heq] at hr
    exact ⟨hr, Or.inl rfl⟩

/-- Dividing both weights by a common factor. -/
theorem divPair_spec (hV : ValueInv T V) (wLow wHigh factor : ValueId) :
    let l := evddValueDiv T V wLow factor
    let h := evddValueDiv T l.2 wHigh factor
    Extends T V h.2 ∧ (V.Valid wLow → V.Valid wHigh → V.Valid factor →
      h.2.Valid l.1 ∧ h.2.Valid h.1 ∧ h.2.Valid factor) := by
  intro l h
  have hl := evddValueDiv_algebraic hV wLow factor
  have hh := evddValueDiv_algebraic hl.ext.inv wHigh factor
  have hext := hl.ext.trans hh.ext
  exact ⟨hext, fun h1 h2 h3 => ⟨hh.ext.valid (hl.valid (valid_pair h1 h3)),
    hh.valid (valid_pair (hl.ext.valid h2) (hl.ext.valid h3)), hext.valid h3⟩⟩

theorem evddNormMaxMagnitude_spec (hV : ValueInv T V) (wLow wHigh : ValueId) :
    Normalizes T V wLow wHigh (evddNormMaxMagnitude T V wLow wHigh) := by
  rw [evddNormMaxMagnitude]
  split
  · exact .zeros hV _ _
  · obtain ⟨hext, hfac⟩ := maxMagnitudeFactor_extends hV wLow wHigh
    obtain ⟨hd, hv⟩ := divPair_spec hext.inv wLow wHigh
      (maxMagnitudeFactor T V wLow wHigh).1
    refine ⟨hext.trans hd, fun hl hh => hv (hext.valid hl) (hext.valid hh) (hext.valid ?_)⟩
    rcases hfac with h | h <;> rw [h] <;> assumption

theorem internUnary_algebraic (hV : ValueInv T V) (f : Option (Option P → Option P))
    (w : ValueId) (type : ℕ) : Algebraic T V [] (internUnary T V f w type) := by
  cases f with
  | none => exact .zero _ (.refl hV)
  | some g => exact ⟨evddValueIntern_extends hV _ _, fun _ => evddValueIntern_valid hV _ _⟩

theorem evddNormL2_spec (hV : ValueInv T V) (wLow wHigh : ValueId) :
    Normalizes T V wLow wHigh (evddNormL2 T V wLow wHigh) := by
  have hr := evddValueResolveType_extends hV wLow wHigh
  rw [evddNormL2]
  split
  · exact .zeros hV _ _
  split
  · rename_i t V₁ heq
    rw [heq] at hr
    -- the squares, their sum, its root
    have hsq : ∀ (W : ValueTable P), ValueInv T W → ∀ w, Algebraic T W []
        (if evddValueIsZero T W w then (evddValueZero, W)
          else internUnary T W (T.fns t).absqfun w t) := by
      intro W hW w
      split
      · exact .zero _ (.refl hW)
      · exact internUnary_algebraic hW _ _ _
    have h0 := hsq V₁ hr.inv wLow
    set sq0 := if evddValueIsZero T V₁ wLow then (evddValueZero, V₁)
      else internUnary T V₁ (T.fns t).absqfun wLow t
    have h1 := hsq sq0.2 h0.ext.inv wHigh
    set sq1 := if evddValueIsZero T sq0.2 wHigh then (evddValueZero, sq0.2)
      else internUnary T sq0.2 (T.fns t).absqfun wHigh t
    have hs := evddValueAdd_algebraic h1.ext.inv sq0.1 sq1.1
    set sum := evddValueAdd T sq1.2 sq0.1 sq1.1
    have hn := internUnary_algebraic hs.ext.inv (T.fns t).sqrtfun sum.1 t
    set n := internUnary T sum.2 (T.fns t).sqrtfun sum.1 t
    obtain ⟨hd, hv⟩ := divPair_spec hn.ext.inv wLow wHigh n.1
    have hext : Extends T V n.2 :=
      hr.trans (h0.ext.trans (h1.ext.trans (hs.ext.trans hn.ext)))
    exact ⟨hext.trans hd, fun hl hh => hv (hext.valid hl) (hext.valid hh) (hn.valid (by simp))⟩
  · rename_i heq
    rw [heq] at hr
    have hu := evddValueUnitFromPair_algebraic hr.inv wLow wHigh
    have hext := hr.trans hu.ext
    exact ⟨hext, fun hl hh => ⟨hext.valid hl, hext.valid hh,
      hu.valid (valid_pair (hr.valid hl) (hr.valid hh))⟩⟩

theorem evddValueNormalize_spec (hT : LawfulNormalize T) (hV : ValueInv T V)
    (wLow wHigh : ValueId) :
    Normalizes T V wLow wHigh (evddValueNormalize T V wLow wHigh) := by
  rw [evddValueNormalize]
  split
  · exact .zeros hV _ _
  have hu := evddValueUnitFromPair_algebraic hV wLow wHigh
  rcases hunit : evddValueUnitFromPair T V wLow wHigh with ⟨u, V₀⟩
  rw [hunit] at hu
  have hr := evddValueResolveType_extends hu.ext.inv wLow wHigh
  have hlift : ∀ {W : ValueTable P} {r : EvddNormResult × ValueTable P}, Extends T V W →
      Normalizes T W wLow wHigh r → Normalizes T V wLow wHigh r := fun hW hn =>
    ⟨hW.trans hn.ext, fun hl hh => hn.valid (hW.valid hl) (hW.valid hh)⟩
  have hplain : ∀ {W : ValueTable P}, Extends T V₀ W →
      Normalizes T V wLow wHigh (⟨wLow, wHigh, u⟩, W) := fun hW =>
    ⟨hu.ext.trans hW, fun hl hh => ⟨(hu.ext.trans hW).valid hl, (hu.ext.trans hW).valid hh,
      hW.valid (hu.valid (valid_pair hl hh))⟩⟩
  dsimp only
  split
  · rename_i t V₁ heq
    rw [heq] at hr
    have hext := hu.ext.trans hr
    split
    · exact hplain (hr.trans (.error hr.inv _))
    · exact hlift hext (evddNormFirstNonzero_spec hr.inv _ _)
    · exact hlift hext (evddNormLow_spec hr.inv _ _)
    · exact hlift hext (evddNormMaxMagnitude_spec hr.inv _ _)
    · exact hlift hext (evddNormL2_spec hr.inv _ _)
    · rename_i f hf
      exact hlift hext (hT t f hf V₁ hr.inv _ _)
  · rename_i heq
    rw [heq] at hr
    exact hplain hr

end MoToBuddy.Evdd
