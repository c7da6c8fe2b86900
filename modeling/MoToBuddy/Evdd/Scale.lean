import Mathlib.Analysis.Real.Sqrt
import Mathlib.Tactic.LinearCombination
import MoToBuddy.Evdd.Exact
import MoToBuddy.Evdd.Session

/-!
# Weights that differ by a scalar (`evdd_value.c`, `evdd_kernel.c`)

Two pairs of weights that differ by a scalar are normalised to one pair if the factor of the
strategy scales with them, and then `evdd_makenode` returns one node for both. `evdd_norm_low`
leaves the high edge alone where the low edge is zero, and the factor of `evdd_norm_l2` is never
negative: these two only scale for some of the scalars.
-/

namespace MoToBuddy.Evdd

open Weighted Chained

variable {K : Type*} [Field K] [LinearOrder K] [IsStrictOrderedRing K] {T : ValueTypes K} {t : ℕ}
  {sqrt : K → K} {strategy : EvddNormalize K} {factor : K → K → K} {c f x y : K}
  {V V' : ValueTable K}

/-! ## Factors -/

/-- What a built-in strategy needs to be exact over an ordered field. -/
structure ExactStrategy (T : ValueTypes K) (t : ℕ) (strategy : EvddNormalize K) (sqrt : K → K) :
    Prop where
  field : ExactField T t
  registered : (T.fns t).normalizefun = some strategy
  builtin : ∀ f, strategy ≠ .custom f
  magnitude : strategy = .maxMagnitude → ComparesMagnitude T t fun x : K => |x|
  roots : strategy = .l2 → ExactRoots T t (fun x => x * x) sqrt
  nonneg : strategy = .l2 → ∀ x, 0 ≤ sqrt x

/-- The scalars for which a strategy scales, given the weight of the low edge. -/
def ScalesBy (x c : K) : EvddNormalize K → Prop
  | .firstNonzero | .maxMagnitude => True
  | .low => x ≠ 0 ∨ c = 1
  | .l2 => 0 < c
  | .custom _ => False

theorem lowFactor_scales_iff (hne : x ≠ 0 ∨ y ≠ 0) (hc : c ≠ 0) :
    lowFactor (c * x) (c * y) = c * lowFactor x y ↔ x ≠ 0 ∨ c = 1 := by
  unfold lowFactor
  by_cases hx : x = 0
  · have hy : y ≠ 0 := hne.resolve_left (not_not.mpr hx)
    simp [hx, hy, hc, eq_comm]
  · simp [hx, hc]

/-- Roots are taken of sums of squares only, so that they are determined by their square. -/
theorem l2Factor_scales_iff (hR : ExactRoots T t (fun x => x * x) sqrt) (hsqrt : ∀ x, 0 ≤ sqrt x)
    (hne : x ≠ 0 ∨ y ≠ 0) (hc : c ≠ 0) :
    l2Factor (fun x => x * x) sqrt (c * x) (c * y) = c * l2Factor (fun x => x * x) sqrt x y ↔
      0 < c := by
  have hcne : c * x ≠ 0 ∨ c * y ≠ 0 := by simpa [hc] using hne
  unfold l2Factor
  rw [if_neg (not_and_or.mpr hne), if_neg (not_and_or.mpr hcne)]
  set r := sqrt (x * x + y * y)
  set r' := sqrt (c * x * (c * x) + c * y * (c * y))
  have hr : r * r = x * x + y * y := hR.exact x y
  have hr' : r' * r' = c * x * (c * x) + c * y * (c * y) := hR.exact (c * x) (c * y)
  have hr0 : 0 ≤ r := hsqrt _
  have hr0' : 0 ≤ r' := hsqrt _
  clear_value r r'
  have hpos : 0 < r := by
    apply lt_of_le_of_ne hr0
    intro h0
    rw [← h0, mul_zero] at hr
    exact not_and_or.mpr hne (hR.definite x y hr.symm)
  have habs : r' = |c| * r := by
    rw [← abs_of_nonneg hr0', ← abs_of_pos hpos, ← abs_mul, ← sq_eq_sq_iff_abs_eq_abs]
    linear_combination hr' - c ^ 2 * hr
  rw [habs]
  constructor
  · intro h
    have hc0 := mul_right_cancel₀ hpos.ne' h
    exact lt_of_le_of_ne (abs_eq_self.mp hc0) hc.symm
  · intro h
    rw [abs_of_pos h]

/-- A strategy has a factor, which scales as `ScalesBy` says. -/
theorem ExactStrategy.exists_factor (hS : ExactStrategy T t strategy sqrt) :
    ∃ factor, Normalizing T t factor ∧ ∀ c x y, c ≠ 0 → (x ≠ 0 ∨ y ≠ 0) →
      (factor (c * x) (c * y) = c * factor x y ↔ ScalesBy x c strategy) := by
  obtain ⟨hX, hreg, hbuiltin, hmag, hroots, hsqrt⟩ := hS
  cases strategy with
  | firstNonzero =>
    refine ⟨_, normalizing_firstNonzero hX hreg, fun c x y hc _ => ?_⟩
    exact iff_true_intro (scales_firstNonzero c x y hc)
  | low => exact ⟨_, normalizing_low hX hreg, fun c x y hc hne => lowFactor_scales_iff hne hc⟩
  | maxMagnitude =>
    refine ⟨_, normalizing_maxMagnitude hX hreg, fun c x y hc _ => ?_⟩
    exact iff_true_intro (scales_maxMagnitude (hmag rfl) c x y hc)
  | l2 =>
    refine ⟨_, normalizing_l2 hX (hroots rfl) hreg, fun c x y hc hne => ?_⟩
    exact l2Factor_scales_iff (hroots rfl) (hsqrt rfl) hne hc
  | custom f => exact absurd rfl (hbuiltin f)

/-- Two pairs that differ by a scalar leave the same pair exactly if their factors do. -/
theorem quotients_eq_iff (hne : x ≠ 0 ∨ y ≠ 0) (hf : f ≠ 0) {g : K} (hg : g ≠ 0) :
    c * x / g = x / f ∧ c * y / g = y / f ↔ g = c * f := by
  constructor
  · rintro ⟨hx, hy⟩
    rw [div_eq_div_iff hg hf] at hx hy
    rcases hne with h | h
    · exact mul_left_cancel₀ h (by linear_combination -hx)
    · exact mul_left_cancel₀ h (by linear_combination -hy)
  · intro h
    have hc : c ≠ 0 := left_ne_zero_of_mul (h ▸ hg)
    rw [h]
    exact ⟨mul_div_mul_left x f hc, mul_div_mul_left y f hc⟩

/-! ## Normalisation -/

/-- The second result has the same pair of weights, and `c` times the incoming weight. -/
structure SharesScaled (t : ℕ) (c : K) (N N' : EvddNormResult × ValueTable K) : Prop where
  low : N'.1.wLow = N.1.wLow
  high : N'.1.wHigh = N.1.wHigh
  incoming : ∃ f, N.2.weight t N.1.incoming = some f ∧ N'.2.weight t N'.1.incoming = some (c * f)

/-- Ids that stand for the same elements still do. -/
def KeepsWeights (t : ℕ) (V V' : ValueTable K) : Prop :=
  ∀ id x, V.weight t id = some x → V'.weight t id = some x

/-- Normalising a pair of weights and its multiple. -/
theorem normalize_scaled_iff (hT : LawfulNormalize T) (hS : ExactStrategy T t strategy sqrt)
    (hV : ValueInv T V) {a b a' b' : ValueId} (ha : V.weight t a = some x)
    (hb : V.weight t b = some y) (hne : x ≠ 0 ∨ y ≠ 0) (hc : c ≠ 0) (hV' : ValueInv T V')
    (hkeeps : KeepsWeights t (evddValueNormalize T V a b).2 V')
    (ha' : V'.weight t a' = some (c * x)) (hb' : V'.weight t b' = some (c * y)) :
    SharesScaled t c (evddValueNormalize T V a b) (evddValueNormalize T V' a' b') ↔
      ScalesBy x c strategy := by
  obtain ⟨factor, hfactor, hscales⟩ := hS.exists_factor
  have hX := hS.field
  have hcne : c * x ≠ 0 ∨ c * y ≠ 0 := by simpa [hc] using hne
  have hf := hfactor.factor_ne hne
  have hf' := hfactor.factor_ne hcne
  have hN := hfactor.spec V hV a b x y ha hb
  have hN' := hfactor.spec V' hV' a' b' _ _ ha' hb'
  have hext := (evddValueNormalize_spec hT hV' a' b').ext
  rw [← hscales c x y hc hne, ← quotients_eq_iff hne hf hf']
  -- the ids of the first pair in the table after the second call
  have hlow := hext.ext.weight (hkeeps _ _ hN.low)
  have hhigh := hext.ext.weight (hkeeps _ _ hN.high)
  constructor
  · rintro ⟨hl, hh, -⟩
    rw [← hl, hN'.low] at hlow
    rw [← hh, hN'.high] at hhigh
    exact ⟨Option.some.inj hlow, Option.some.inj hhigh⟩
  · rintro ⟨hl, hh⟩
    have hg := (quotients_eq_iff hne hf hf').mp ⟨hl, hh⟩
    rw [← hl] at hlow
    rw [← hh] at hhigh
    refine ⟨weight_inj hX hext.inv hN'.low hlow, weight_inj hX hext.inv hN'.high hhigh, ?_⟩
    exact ⟨_, hN.incoming, hg ▸ hN'.incoming⟩

/-! ## `evdd_makenode` -/

/-- The second call returns the same node, with `c` times the weight. -/
structure SharesNode (t : ℕ) (c : K) (r r' : EVDD × EvddState K) : Prop where
  node : r'.1.node = r.1.node
  weight : ∃ z, r.2.values.weight t r.1.w = some z ∧ r'.2.values.weight t r'.1.w = some (c * z)

variable {E E' : Policy K} {s s' : EvddState K} {level : ℕ} {low high low' high' : EVDD}

section Raw

omit [Field K] [IsStrictOrderedRing K]

/-- What `evdd_makenode` returns where `evdd_makenode_raw` makes no node. -/
theorem makenode_of_raw (h : TableInv True s) {N : EvddNormResult × ValueTable K}
    (hN : evddValueNormalize T s.values low.w high.w = N)
    (hzero : evddValueIsZero T N.2 N.1.incoming = false) {n : ℕ} {w : ValueId × ValueTable K}
    (hraw : evddMakenodeRaw T E (makenodeState s low high N.2) level ⟨low.node, N.1.wLow⟩
        ⟨high.node, N.1.wHigh⟩ = (⟨n, w.1⟩, { makenodeState s low high N.2 with values := w.2 })) :
    let r := evddMakenode T E s level low high
    r.1 = ⟨n, (evddValueMul T w.2 N.1.incoming w.1).1⟩ ∧
      r.2.values = (evddValueMul T w.2 N.1.incoming w.1).2 := by
  intro r
  have hr : r = _ := evddMakenode_eq T E h.running.1 level low high N hN
  rw [hzero, hraw] at hr
  rw [hr]
  exact ⟨rfl, rfl⟩

theorem makenode_skip (E : Policy K) (level : ℕ) (h : TableInv True s)
    {N : EvddNormResult × ValueTable K} (hN : evddValueNormalize T s.values low.w high.w = N)
    (hzero : evddValueIsZero T N.2 N.1.incoming = false)
    (hsame : low.node = high.node ∧ N.1.wLow = N.1.wHigh) :
    let r := evddMakenode T E s level low high
    r.1 = ⟨low.node, (evddValueMul T N.2 N.1.incoming N.1.wLow).1⟩ ∧
      r.2.values = (evddValueMul T N.2 N.1.incoming N.1.wLow).2 := by
  apply makenode_of_raw (w := (N.1.wLow, N.2)) h hN hzero
  have hrun : (makenodeState s low high N.2).evddrunning = true := h.running.1
  rw [evddMakenodeRaw, if_neg (by simp [hrun]), if_pos hsame]
  rfl

theorem makenode_found (h : TableInv True s) (hlevel : level < 2 ^ 21)
    {N : EvddNormResult × ValueTable K} (hN : evddValueNormalize T s.values low.w high.w = N)
    (hzero : evddValueIsZero T N.2 N.1.incoming = false)
    (hdiffer : ¬ (low.node = high.node ∧ N.1.wLow = N.1.wHigh)) {n : ℕ} (hn : s.live n = true)
    (hkey : s.key n = rawKey level ⟨low.node, N.1.wLow⟩ ⟨high.node, N.1.wHigh⟩) :
    let r := evddMakenode T E s level low high
    let u := evddValueUnitFromPair T N.2 N.1.wLow N.1.wHigh
    r.1 = ⟨n, (evddValueMul T u.2 N.1.incoming u.1).1⟩ ∧
      r.2.values = (evddValueMul T u.2 N.1.incoming u.1).2 := by
  have hstate : TableInv True (makenodeState s low high N.2) :=
    (h.restack (high.node :: low.node :: s.evddrefstack)).setValues N.2
  apply makenode_of_raw h hN hzero
  exact evddMakenodeRaw_found T E hstate hlevel hdiffer hn hkey

end Raw

omit [IsStrictOrderedRing K] in
/-- The weight of an edge to a new node is the factor: the unit of its two weights is one. -/
theorem weight_mul_unit (hX : ExactField T t) {N : EvddNormResult × ValueTable K}
    (hV : ValueInv T N.2) (hN : NormWeights t x y f N) (hf : f ≠ 0) (hne : x ≠ 0 ∨ y ≠ 0) :
    let u := evddValueUnitFromPair T N.2 N.1.wLow N.1.wHigh
    let w := evddValueMul T u.2 N.1.incoming u.1
    w.2.weight t w.1 = some f := by
  intro u w
  have hq : x / f ≠ 0 ∨ y / f ≠ 0 := by simpa [div_eq_zero_iff, hf] using hne
  have hone : u.2.weight t u.1 = some 1 := weight_unitFromPair hX hV hN.low hN.high hq
  have hext := (evddValueUnitFromPair_algebraic hV N.1.wLow N.1.wHigh).ext
  have hw := weight_mul hX hext.inv (hext.ext.weight hN.incoming) hone
  rwa [mul_one] at hw

theorem makenode_scaled (hT : LawfulNormalize T) (hS : ExactStrategy T t strategy sqrt)
    (h : TableInv True s) (hV : ValueInv T s.values) (hlevel : level < 2 ^ 21)
    (hx : s.values.weight t low.w = some x) (hy : s.values.weight t high.w = some y)
    (hne : x ≠ 0 ∨ y ≠ 0) (hc : c ≠ 0) (hscale : ScalesBy x c strategy)
    {r : EVDD × EvddState K} (hr : evddMakenode T E s level low high = r)
    (hroom : r.2.nodenums = s.nodenums) (h' : TableInv True s') (hV' : ValueInv T s'.values)
    (hkeeps : KeepsWeights t r.2.values s'.values)
    (hnode : r.2.live r.1.node = true →
      s'.live r.1.node = true ∧ s'.key r.1.node = r.2.key r.1.node)
    (hlow : low'.node = low.node) (hhigh : high'.node = high.node)
    (hx' : s'.values.weight t low'.w = some (c * x))
    (hy' : s'.values.weight t high'.w = some (c * y)) :
    SharesNode t c r (evddMakenode T E' s' level low' high') := by
  obtain ⟨factor, hfactor, hscales⟩ := hS.exists_factor
  have hX := hS.field
  have hf := hfactor.factor_ne hne
  have hN := hfactor.spec _ hV low.w high.w x y hx hy
  have hN' := hfactor.spec _ hV' low'.w high'.w _ _ hx' hy'
  rw [(hscales c x y hc hne).mpr hscale] at hN'
  have hext := (evddValueNormalize_spec hT hV low.w high.w).ext
  have hext' := (evddValueNormalize_spec hT hV' low'.w high'.w).ext
  have hzero' := isZero_false hX hext'.inv hN'.incoming (mul_ne_zero hc hf)
  have hshares : KeepsWeights t (evddValueNormalize T s.values low.w high.w).2 s'.values →
      SharesScaled t c (evddValueNormalize T s.values low.w high.w)
        (evddValueNormalize T s'.values low'.w high'.w) := fun hk =>
    (normalize_scaled_iff hT hS hV hx hy hne hc hV' hk hx' hy').mpr hscale
  have hspec := evddMakenode_spec T E h low high (fun _ => hlevel) rfl rfl
  rw [hr] at hspec
  generalize hNeq : evddValueNormalize T s.values low.w high.w = N at hN hext hshares hspec
  generalize hNeq' : evddValueNormalize T s'.values low'.w high'.w = N' at hN' hext' hzero' hshares
  cases hspec.outcome with
  | zero zero _ _ _ =>
    rw [isZero_false hX hext.inv hN.incoming hf] at zero
    exact nomatch zero
  | full _ _ _ _ nodenums => omega
  | skip _ same edge values _ =>
    have hmul := weight_mul hX hext.inv hN.incoming hN.low
    have hmul' := weight_mul hX hext'.inv hN'.incoming hN'.low
    have hmore := (evddValueMul_algebraic hext.inv N.1.incoming N.1.wLow).ext
    rw [← values] at hmul hmore
    obtain ⟨hl, hh, -⟩ := hshares fun id z hz => hkeeps _ _ (hmore.ext.weight hz)
    have hsame' : low'.node = high'.node ∧ N'.1.wLow = N'.1.wHigh := by
      rw [hlow, hhigh, hl, hh]
      exact same
    obtain ⟨hedge', hvalues'⟩ := makenode_skip E' level h' hNeq' hzero' hsame'
    refine ⟨by rw [hedge', edge]; exact hlow, _, by rw [edge]; exact hmul, ?_⟩
    rw [hedge', hvalues', hmul', mul_div_mul_left x (factor x y) hc, mul_assoc]
  | node _ differ live key weight values _ =>
    have hunit := weight_mul_unit hX hext.inv hN hf hne
    have hne' : c * x ≠ 0 ∨ c * y ≠ 0 := by simpa [hc] using hne
    have hunit' := weight_mul_unit hX hext'.inv hN' (mul_ne_zero hc hf) hne'
    have hUext := (evddValueUnitFromPair_algebraic hext.inv N.1.wLow N.1.wHigh).ext
    have hmore := (evddValueMul_algebraic hUext.inv N.1.incoming
      (evddValueUnitFromPair T N.2 N.1.wLow N.1.wHigh).1).ext
    simp only [← values, ← weight] at hunit hmore
    obtain ⟨hl, hh, -⟩ := hshares fun id z hz =>
      hkeeps _ _ (hmore.ext.weight (hUext.ext.weight hz))
    obtain ⟨hlive', hkey'⟩ := hnode live
    rw [key] at hkey'
    have hdiffer' : ¬ (low'.node = high'.node ∧ N'.1.wLow = N'.1.wHigh) := by
      rw [hlow, hhigh, hl, hh]
      exact differ
    have hkey : s'.key r.1.node = rawKey level ⟨low'.node, N'.1.wLow⟩ ⟨high'.node, N'.1.wHigh⟩ := by
      rw [hkey', hlow, hhigh, hl, hh]
    obtain ⟨hedge', hvalues'⟩ :=
      makenode_found (E := E') h' hlevel hNeq' hzero' hdiffer' hlive' hkey
    refine ⟨by rw [hedge'], _, hunit, ?_⟩
    rw [hedge', hvalues', hunit']

/-! ## In a session -/

variable {ops : EvddApplyOps K}

/-- Edges that differ by a scalar share a node: first their weights as a pair, then what
`evdd_makenode` returns for them, as long as the node and the ids of the first call are there. -/
theorem evddRun_makenode_scaled (hT : LawfulNormalize T) (hops : ∀ op, LawfulOp T (ops op))
    {size maxsize cachesize : ℕ} (hsize : 2 ≤ size) (hcache : 0 < cachesize)
    {V : ValueTable K} (hV : ValueInv T V) (hS : ExactStrategy T t strategy sqrt)
    (hrun : EvddRun T ops (fun _ c => c.level ≤ evddMaxlevel)
      (evddInit size maxsize cachesize V) s)
    (hlevel : level ≤ evddMaxlevel) (hx : s.values.weight t low.w = some x)
    (hy : s.values.weight t high.w = some y) (hne : x ≠ 0 ∨ y ≠ 0) (hc : c ≠ 0) :
    (∀ V' a b, ValueInv T V' →
      KeepsWeights t (evddValueNormalize T s.values low.w high.w).2 V' →
      V'.weight t a = some (c * x) → V'.weight t b = some (c * y) →
      (SharesScaled t c (evddValueNormalize T s.values low.w high.w) (evddValueNormalize T V' a b) ↔
        ScalesBy x c strategy)) ∧
    (ScalesBy x c strategy →
      let r := evddMakenode T E s level low high
      r.2.nodenums = s.nodenums →
      ∀ s', EvddRun T ops (fun _ c => c.level ≤ evddMaxlevel) r.2 s' →
      KeepsWeights t r.2.values s'.values →
      (r.2.live r.1.node = true →
        s'.live r.1.node = true ∧ s'.key r.1.node = r.2.key r.1.node) →
      ∀ a b, s'.values.weight t a = some (c * x) → s'.values.weight t b = some (c * y) →
      SharesNode t c r (evddMakenode T E' s' level ⟨low.node, a⟩ ⟨high.node, b⟩)) := by
  have hinv : ∀ u, EvddRun T ops (fun _ c => c.level ≤ evddMaxlevel)
      (evddInit size maxsize cachesize V) u → TableInv True u ∧ ValueInv T u.values := by
    intro u hu
    have hinit := (evddInit_inv (q := True) hsize hcache maxsize V).1
    have h := hu.inv hT hops (fun _ _ _ hok => Nat.lt_succ_of_le hok) hinit hV
    exact ⟨h.1, h.2.1⟩
  obtain ⟨hi, hVs⟩ := hinv s hrun
  constructor
  · intro V' a b hV' hkeeps ha hb
    exact normalize_scaled_iff hT hS hVs hx hy hne hc hV' hkeeps ha hb
  · intro hscale r hroom s' hs' hkeeps hnode a b ha hb
    have hstep : EvddStep T ops (fun _ c => c.level ≤ evddMaxlevel) s r.2 :=
      ⟨E, .makenode level low high, .edge r.1, hlevel, rfl⟩
    obtain ⟨hi', hVs'⟩ := hinv s' ((hrun.tail hstep).trans hs')
    exact makenode_scaled hT hS hi hVs (Nat.lt_succ_of_le hlevel) hx hy hne hc hscale rfl hroom
      hi' hVs' hkeeps hnode rfl rfl ha hb

/-! ## Strategies that do not scale -/

/-- Two payloads are interned. -/
def internPair (T : ValueTypes K) (V : ValueTable K) (t : ℕ) (x y : K) :
    (ValueId × ValueId) × ValueTable K :=
  let a := evddValueIntern T V (some x) t
  let b := evddValueIntern T a.2 (some y) t
  ((a.1, b.1), b.2)

/-- A pair is normalised, and then its multiple. -/
def normalizeTwice (T : ValueTypes K) (t : ℕ) (x y c : K) :
    (EvddNormResult × ValueTable K) × (EvddNormResult × ValueTable K) :=
  let p := internPair T .empty t x y
  let N := evddValueNormalize T p.2 p.1.1 p.1.2
  let p' := internPair T N.2 t (c * x) (c * y)
  (N, evddValueNormalize T p'.2 p'.1.1 p'.1.2)

omit [IsStrictOrderedRing K] in
theorem internPair_spec (hX : ExactField T t) (hV : ValueInv T V) (x y : K) :
    let p := internPair T V t x y
    Extends T V p.2 ∧ p.2.weight t p.1.1 = some x ∧ p.2.weight t p.1.2 = some y := by
  intro p
  have ha := evddValueIntern_spec hV (some x) t
  have hb := evddValueIntern_spec ha.inv (some y) t
  refine ⟨⟨hb.inv, ha.ext.trans hb.ext⟩, ?_, weight_intern hX ha.inv y⟩
  exact hb.ext.weight (weight_intern hX hV x)

theorem normalizeTwice_scaled_iff (hT : LawfulNormalize T) (hS : ExactStrategy T t strategy sqrt)
    (hne : x ≠ 0 ∨ y ≠ 0) (hc : c ≠ 0) :
    SharesScaled t c (normalizeTwice T t x y c).1 (normalizeTwice T t x y c).2 ↔
      ScalesBy x c strategy := by
  obtain ⟨hp, hx, hy⟩ := internPair_spec hS.field (ValueInv.empty T) x y
  set p := internPair T .empty t x y
  have hN := (evddValueNormalize_spec hT hp.inv p.1.1 p.1.2).ext
  obtain ⟨hp', hx', hy'⟩ := internPair_spec hS.field hN.inv (c * x) (c * y)
  exact normalize_scaled_iff hT hS hp.inv hx hy hne hc hp'.inv (fun _ _ h => hp'.ext.weight h) hx' hy'

/-- The callbacks of a type of real weights that is normalised by `evdd_norm_l2`. -/
noncomputable def realFunctions : EvddValueFunctions ℝ where
  hashfun := none
  cellfun := none
  naxes := 0
  comparefun := some fun a b => a = b
  mulfun := some fun a b => some (a.getD 0 * b.getD 0)
  divfun := some fun a b => some (a.getD 0 / b.getD 0)
  addfun := some fun a b => some (a.getD 0 + b.getD 0)
  subfun := some fun a b => some (a.getD 0 - b.getD 0)
  iszerofun := some fun u => u = 0
  isonefun := some fun u => u = 1
  abscmpfun := none
  absqfun := some fun a => some (a.getD 0 * a.getD 0)
  sqrtfun := some fun a => some (Real.sqrt (a.getD 0))
  normalizefun := some .l2

noncomputable def realTypes : ValueTypes ℝ := ⟨1, fun _ => realFunctions⟩

theorem realTypes_exactStrategy : ExactStrategy realTypes 0 .l2 Real.sqrt where
  field :=
    { registered := Nat.one_pos
      nocell := rfl
      compare := fun _ _ => decide_eq_true_iff
      iszero := fun _ => decide_eq_true_iff
      isone := fun p hp u => by
        rw [← Option.some.inj hp]
        exact decide_eq_true_iff
      mul := ⟨_, rfl, fun _ _ => rfl⟩
      div := ⟨_, rfl, fun _ _ _ => rfl⟩
      add := ⟨_, rfl, fun _ _ => rfl⟩ }
  registered := rfl
  builtin := nofun
  magnitude := nofun
  roots _ :=
    { absqfun := ⟨_, rfl, fun _ => rfl⟩
      sqrtfun := ⟨_, rfl, fun _ => rfl⟩
      zero := mul_zero 0
      definite := fun x y h => by
        have hx := mul_self_nonneg x
        have hy := mul_self_nonneg y
        exact ⟨mul_self_eq_zero.mp (by linarith), mul_self_eq_zero.mp (by linarith)⟩
      exact := fun x y =>
        Real.mul_self_sqrt (add_nonneg (mul_self_nonneg x) (mul_self_nonneg y)) }
  nonneg _ := Real.sqrt_nonneg

theorem ratTypes_exactStrategy {strategy : EvddNormalize ℚ} (hl2 : strategy ≠ .l2) (hcustom : ∀ f, strategy ≠ .custom f) :
    ExactStrategy (ratTypes strategy) 0 strategy id where
  field := ratTypes_exactField strategy
  registered := rfl
  builtin := hcustom
  magnitude _ := ratTypes_comparesMagnitude strategy
  roots h := absurd h hl2
  nonneg h := absurd h hl2

omit [Field K] [IsStrictOrderedRing K] in
/-- Two values are interned in a session. -/
theorem evddRun_internPair {ok : EvddState K → EvddCall K → Prop}
    (hok : ∀ u v, ok u (.valueIntern v t)) (s : EvddState K) (x y : K) :
    EvddRun T ops ok s { s with values := (internPair T s.values t x y).2 } := by
  have E : Policy K := .neverCollect (fun _ => true) fun _ _ => true
  refine .head ⟨E, .valueIntern (some x) t, _, hok _ _, rfl⟩ ?_
  exact .single ⟨E, .valueIntern (some y) t, _, hok _ _, rfl⟩

/-- `evdd_makenode` on `(2, 4)`, and then on `(6, 12)`. -/
theorem ratSession_makenode_scaled : ∃ (s s' : EvddState ℚ) (low high low' high' : EVDD),
    let r := evddMakenode (ratTypes .firstNonzero) ratPolicy s 5 low high
    r.2.live r.1.node = true ∧ r.1 ≠ low ∧
      SharesNode 0 3 r (evddMakenode (ratTypes .firstNonzero) ratPolicy s' 5 low' high') := by
  have hS : ExactStrategy (ratTypes .firstNonzero) 0 .firstNonzero id :=
    ratTypes_exactStrategy nofun nofun
  have hok : ∀ (u : EvddState ℚ) (v : Option ℚ),
      (EvddCall.valueIntern v 0 : EvddCall ℚ).level ≤ evddMaxlevel := fun _ _ => Nat.zero_le _
  have hempty : ratSession.values = .empty := rfl
  obtain ⟨hp, hx, hy⟩ := internPair_spec hS.field (ValueInv.empty (ratTypes .firstNonzero)) 2 4
  have hrun : EvddRun (ratTypes .firstNonzero) (ratOps .firstNonzero)
      (fun _ c => c.level ≤ evddMaxlevel) (evddInit 7 0 3 .empty) _ :=
    evddRun_internPair hok ratSession 2 4
  have hmade : (let p := internPair (ratTypes .firstNonzero) ratSession.values 0 2 4
      let s : EvddState ℚ := { ratSession with values := p.2 }
      let r := evddMakenode (ratTypes .firstNonzero) ratPolicy s 5 ⟨0, p.1.1⟩ ⟨0, p.1.2⟩
      r.2.nodenums = s.nodenums ∧ r.2.live r.1.node = true ∧ r.1 ≠ ⟨0, p.1.1⟩) := by
    decide +kernel
  rw [hempty] at hrun hmade
  generalize internPair (ratTypes .firstNonzero) ValueTable.empty 0 2 4 = p at hp hx hy hrun hmade
  obtain ⟨hroom, hlive, hnew⟩ := hmade
  have h := (@evddRun_makenode_scaled ℚ _ _ _ _ _ _ _ 3 2 4 ratPolicy ratPolicy _ _ ⟨0, p.1.1⟩
    ⟨0, p.1.2⟩ _ ratTypes_lawfulNormalize (ratOps_lawful _) _ _ _ (by decide) (by decide) _
    (ValueInv.empty _) hS hrun (by decide : 5 ≤ evddMaxlevel) hx hy (by norm_num)
    (by norm_num)).2 trivial
  generalize ({ ratSession with values := p.2 } : EvddState ℚ) = s at hrun hroom hlive hnew h
  have hcall : evddCall (ratTypes .firstNonzero) ratPolicy (ratOps .firstNonzero) s
      (.makenode 5 ⟨0, p.1.1⟩ ⟨0, p.1.2⟩) = some (Prod.map .edge id
        (evddMakenode (ratTypes .firstNonzero) ratPolicy s 5 ⟨0, p.1.1⟩ ⟨0, p.1.2⟩)) := rfl
  have hinit := (evddInit_inv (P := ℚ) (q := False) (by decide : 2 ≤ 7) (by decide : 0 < 3) 0
    .empty).1
  have hlevel : (EvddCall.makenode 5 ⟨0, p.1.1⟩ ⟨0, p.1.2⟩ : EvddCall ℚ).level ≤ evddMaxlevel :=
    (by decide : 5 ≤ evddMaxlevel)
  have hrun' := hrun.tail ⟨ratPolicy, _, _, hlevel, hcall⟩
  have hV := (EvddRun.inv ratTypes_lawfulNormalize (ratOps_lawful .firstNonzero)
    (fun hq => hq.elim) hinit (ValueInv.empty _) hrun').2.1
  obtain ⟨hp', hx', hy'⟩ := internPair_spec hS.field hV (3 * 2) (3 * 4)
  have hshares := h hroom _ (evddRun_internPair hok _ (3 * 2) (3 * 4))
    (fun _ _ hid => hp'.ext.weight hid) (fun hlive => ⟨hlive, rfl⟩) _ _ hx' hy'
  exact ⟨s, _, ⟨0, p.1.1⟩, ⟨0, p.1.2⟩, _, _, hlive, hnew, hshares⟩

/-- The pairs `(0, 1)` and `(0, 2)` with `evdd_norm_low`, and `(3, 4)` and `(-3, -4)` with
`evdd_norm_l2`, do not share their pair of weights. -/
theorem normalizeTwice_not_shared :
    (let N := normalizeTwice (ratTypes .low) 0 0 1 2; ¬ SharesScaled 0 2 N.1 N.2) ∧
    (let N := normalizeTwice realTypes 0 3 4 (-1); ¬ SharesScaled 0 (-1) N.1 N.2) := by
  have hlow : LawfulNormalize (ratTypes .low) := fun _ f hf => by cases Option.some.inj hf
  have hreal : LawfulNormalize realTypes := fun _ f hf => by cases Option.some.inj hf
  have hS : ExactStrategy (ratTypes .low) 0 .low id := ratTypes_exactStrategy nofun nofun
  constructor
  · intro N h
    have hscale := (normalizeTwice_scaled_iff hlow hS (by norm_num) (by norm_num)).mp h
    simp [ScalesBy] at hscale
  · intro N h
    have hscale :=
      (normalizeTwice_scaled_iff hreal realTypes_exactStrategy (by norm_num) (by norm_num)).mp h
    norm_num [ScalesBy] at hscale

end MoToBuddy.Evdd
