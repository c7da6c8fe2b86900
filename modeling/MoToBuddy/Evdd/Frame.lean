import MoToBuddy.Evdd.Makenode
import MoToBuddy.Evdd.ValueAlgebra

/-!
# What the recursions leave alone

`CallSpec` is the contract that `evdd_makenode` and `evdd_apply` share for every weight
type: the node table and the intern table keep their invariants, held nodes keep their
keys, valid weights give valid weights, and nodes that exist give a node that exists.
-/

namespace MoToBuddy.Evdd

open Marking

variable {P : Type*} [DecidableEq P] {T : ValueTypes P} {E : Policy P} {q : Prop}
  {s s' s'' : EvddState P}

/-- All weights of nodes and of the operator cache's entries are valid, and free slots hold
none. -/
structure WeightInv (s : EvddState P) : Prop where
  node : ∀ n, s.live n = true → s.values.Valid (s.key n).wLow ∧ s.values.Valid (s.key n).wHigh
  free : ∀ n, (s.key n).low = none →
    (s.key n).wLow = evddValueZero ∧ (s.key n).wHigh = evddValueZero
  cache : ∀ i, s.evddApplycache.isValid i = true →
    ∀ w ∈ [(s.evddApplycache.table i).aW, (s.evddApplycache.table i).bW,
      (s.evddApplycache.table i).resW], s.values.Valid w

/-- The contract of a call that returns an edge, with its operands. -/
structure CallFrame (q : Prop) (T : ValueTypes P) (s : EvddState P) (operands : List EVDD)
    (r : EVDD × EvddState P) : Prop where
  inv : TableInv q r.2
  keeps : Keeps s r.2
  refstack : r.2.evddrefstack = s.evddrefstack
  values : ValueInv T s.values → Extends T s.values r.2.values
  weight : ValueInv T s.values → WeightInv s → (∀ e ∈ operands, s.values.Valid e.w) →
    WeightInv r.2 ∧ r.2.values.Valid r.1.w

/-- The contract of a call that also keeps the graph. -/
structure CallSpec (q : Prop) (T : ValueTypes P) (s : EvddState P) (operands : List EVDD)
    (r : EVDD × EvddState P) : Prop extends CallFrame q T s operands r where
  graph : GraphInv s → (∀ e ∈ operands, e.node = 0 ∨ s.Held e.node) →
    GraphInv r.2 ∧ r.2.IsNode r.1.node

omit [DecidableEq P] in
theorem WeightInv.of_values (h : WeightInv s) {V : ValueTable P} (hV : s.values.Ext V) :
    WeightInv { s with values := V } :=
  ⟨fun n hn => ⟨hV.valid (h.node n hn).1, hV.valid (h.node n hn).2⟩, h.free,
    fun i hi w hw => hV.valid (h.cache i hi w hw)⟩

omit [DecidableEq P] in
/-- Whatever weight is read from a slot is valid. -/
theorem WeightInv.valid (h : WeightInv s) (ht : TableInv q s) (n : ℕ) :
    s.values.Valid (s.key n).wLow ∧ s.values.Valid (s.key n).wHigh := by
  by_cases h0 : n = evddTrueNode
  · rw [h0, ht.terminal]
    exact ⟨ValueTable.valid_zero _, ValueTable.valid_zero _⟩
  · cases hlow : (s.key n).low with
    | none => exact ⟨Or.inl (h.free n hlow).1, Or.inl (h.free n hlow).2⟩
    | some low => exact h.node n (EvddState.live_iff.mpr ⟨h0, low, hlow⟩)

omit [DecidableEq P] in
/-- The weights stay valid if new keys have valid weights and the cache is stable. -/
theorem WeightInv.step (h : WeightInv s) {key : EvddKey} (hext : s.values.Ext s'.values)
    (hkey : ∀ n, s'.key n = s.key n ∨ s'.key n = .free ∨ s'.key n = key)
    (hlow : key.low ≠ none) (hnew : s'.values.Valid key.wLow ∧ s'.values.Valid key.wHigh)
    (hcache : CacheStable s s') : WeightInv s' := by
  refine ⟨fun n hn => ?_, fun n hn => ?_, fun i hi w hw => ?_⟩
  · rcases hkey n with hk | hk | hk <;> rw [hk]
    · rw [EvddState.live_congr hk] at hn
      exact ⟨hext.valid (h.node n hn).1, hext.valid (h.node n hn).2⟩
    · exact ⟨ValueTable.valid_zero _, ValueTable.valid_zero _⟩
    · exact hnew
  · rcases hkey n with hk | hk | hk <;> rw [hk] at hn ⊢
    · exact h.free n hn
    · exact ⟨rfl, rfl⟩
    · exact absurd hn hlow
  · rcases hcache with hc | ⟨hc, -⟩
    · rw [hc i] at hi
      exact absurd hi Bool.false_ne_true
    · rw [hc] at hi hw
      exact hext.valid (h.cache i hi w hw)

theorem MakeOutcome.extends {level : ℕ} {low high : EVDD} {r : EVDD × EvddState P}
    {N : EvddNormResult × ValueTable P} {U : ValueId × ValueTable P}
    (h : MakeOutcome T s level low high N U r) (hN : ValueInv T N.2)
    (hU : Algebraic T N.2 [N.1.wLow, N.1.wHigh] U) :
    Extends T N.2 r.2.values ∧
      (N.2.Valid N.1.wLow → N.2.Valid N.1.wHigh → N.2.Valid N.1.incoming →
        r.2.values.Valid r.1.w) := by
  cases h with
  | zero zero edge values nodenums =>
    rw [values, edge]
    exact ⟨.refl hN, fun _ _ _ => ValueTable.valid_zero _⟩
  | skip zero same edge values nodenums =>
    have hm := evddValueMul_algebraic hN N.1.incoming N.1.wLow
    rw [values, edge]
    exact ⟨hm.ext, fun hl _ hi => hm.valid (valid_pair hi hl)⟩
  | full zero node weight values nodenums =>
    have hm := evddValueMul_algebraic hN N.1.incoming evddValueZero
    rw [values, weight]
    exact ⟨hm.ext, fun _ _ hi => hm.valid (valid_pair hi (ValueTable.valid_zero _))⟩
  | node zero differ live key weight values nodenums =>
    have hm := evddValueMul_algebraic hU.ext.inv N.1.incoming U.1
    rw [values, weight]
    exact ⟨hU.ext.trans hm.ext, fun hl hh hi =>
      hm.valid (valid_pair (hU.ext.valid hi) (hU.valid (valid_pair hl hh)))⟩

theorem evddMakenode_call (hT : LawfulNormalize T) (h : TableInv q s) {level : ℕ}
    (low high : EVDD) (hlevel : q → level < 2 ^ 21) :
    CallSpec q T s [low, high] (evddMakenode T E s level low high) := by
  have hm := evddMakenode_spec T E h low high hlevel rfl rfl
  refine ⟨⟨hm.frame.inv, hm.frame.keeps, hm.frame.refstack, fun hV => ?_, fun hV hw hop => ?_⟩,
    fun hg hop => ?_⟩
  · have hn := evddValueNormalize_spec hT hV low.w high.w
    have hu := evddValueUnitFromPair_algebraic hn.ext.inv
      (evddValueNormalize T s.values low.w high.w).1.wLow
      (evddValueNormalize T s.values low.w high.w).1.wHigh
    exact hn.ext.trans (hm.outcome.extends hn.ext.inv hu).1
  · have hn := evddValueNormalize_spec hT hV low.w high.w
    have hu := evddValueUnitFromPair_algebraic hn.ext.inv
      (evddValueNormalize T s.values low.w high.w).1.wLow
      (evddValueNormalize T s.values low.w high.w).1.wHigh
    obtain ⟨hext, hres⟩ := hm.outcome.extends hn.ext.inv hu
    obtain ⟨hl, hh, hi⟩ := hn.valid (hop low (by simp)) (hop high (by simp))
    exact ⟨hw.step (hn.ext.trans hext).ext hm.frame.other (Option.some_ne_none _)
      ⟨hext.valid hl, hext.valid hh⟩
      hm.frame.cache, hres hl hh hi⟩
  · exact hm.graph hg ((hop low (by simp)).imp_right EvddState.Held.live)
      ((hop high (by simp)).imp_right EvddState.Held.live)

/-- `evdd_makenode_raw`; it does not protect its operands, so there is no graph part. -/
theorem evddMakenodeRaw_frame (h : TableInv q s) {level : ℕ} (low high : EVDD)
    (hlevel : q → level < 2 ^ 21) :
    CallFrame q T s [low, high] (evddMakenodeRaw T E s level low high) := by
  obtain ⟨hf, ho, -⟩ := evddMakenodeRaw_spec T E h low high hlevel
  have hu := fun hV : ValueInv T s.values => evddValueUnitFromPair_algebraic hV low.w high.w
  have hvals : ValueInv T s.values →
      Extends T s.values (evddMakenodeRaw T E s level low high).2.values ∧
      (s.values.Valid low.w → s.values.Valid high.w →
        (evddMakenodeRaw T E s level low high).2.values.Valid
          (evddMakenodeRaw T E s level low high).1.w) := by
    intro hV
    cases ho with
    | skip same edge state =>
      rw [state, edge]
      exact ⟨.refl hV, fun hl _ => hl⟩
    | full differ edge values nodenums =>
      rw [values, edge]
      exact ⟨.refl hV, fun _ _ => ValueTable.valid_zero _⟩
    | node differ live key weight values nodenums =>
      rw [values, weight]
      exact ⟨(hu hV).ext, fun hl hh => (hu hV).valid (valid_pair hl hh)⟩
  refine ⟨hf.inv, hf.keeps, hf.refstack, fun hV => (hvals hV).1, fun hV hw hop => ?_⟩
  obtain ⟨hext, hres⟩ := hvals hV
  have hl := hop low (by simp)
  have hh := hop high (by simp)
  exact ⟨hw.step hext.ext hf.other (Option.some_ne_none _) ⟨hext.valid hl, hext.valid hh⟩
    hf.cache, hres hl hh⟩

/-! ## Cofactors -/

/-- What taking a cofactor does: the state changes in the intern table only. -/
structure EdgeSpec (T : ValueTypes P) (s : EvddState P) (e : EVDD)
    (r : EVDD × EvddState P) : Prop where
  state : r.2 = { s with values := r.2.values }
  values : ValueInv T s.values → Extends T s.values r.2.values
  weight : ValueInv T s.values → WeightInv s → s.values.Valid e.w → r.2.values.Valid r.1.w
  graph : GraphInv s → e.node = 0 ∨ s.Held e.node → r.1.node = 0 ∨ s.Held r.1.node

theorem EdgeSpec.refl (s : EvddState P) (e : EVDD) : EdgeSpec T s e (e, s) :=
  ⟨rfl, fun hV => .refl hV, fun _ _ h => h, fun _ h => h⟩

omit [DecidableEq P] in
/-- A child of a held node is held. -/
theorem held_child (h : TableInv q s) (hg : GraphInv s) {n m : ℕ} (hn : n = 0 ∨ s.Held n)
    (hm : m ∈ s.succ n) : m = 0 ∨ s.Held m := by
  rcases hn with rfl | hn
  · left
    rw [EvddState.succ, h.terminal] at hm
    simpa [EvddKey.terminal] using hm
  · exact (hg.child n hn.live m hm).imp_right (hn.child hm)

theorem evddEdge_spec (h : TableInv q s) (e : EVDD) {child : ℕ} {w : ValueId}
    (hchild : child ∈ s.succ e.node) (hw : WeightInv s → s.values.Valid w) :
    EdgeSpec T s e (evddEdge T s e child w) :=
  ⟨rfl, fun hV => (evddValueMul_algebraic hV e.w w).ext,
    fun hV hwi he => (evddValueMul_algebraic hV e.w w).valid (valid_pair he (hw hwi)),
    fun hg he => held_child h hg he hchild⟩

theorem evddEdgeLow_spec (h : TableInv q s) {e : EVDD} {split : Bool} {r : EVDD × EvddState P}
    (hr : evddEdgeLow T s e split = some r) : EdgeSpec T s e r := by
  rw [evddEdgeLow] at hr
  cases split with
  | false =>
    obtain rfl : (e, s) = r := by simpa using hr
    exact .refl s e
  | true =>
    have hlow : (s.evddnodes e.node).low = (s.key e.node).low := rfl
    rw [if_pos rfl, hlow] at hr
    cases hk : (s.key e.node).low with
    | none => simp [hk] at hr
    | some low =>
      simp only [hk, Option.some.injEq] at hr
      subst hr
      exact evddEdge_spec h e (by simp [EvddState.succ, hk]) fun hw => (hw.valid h e.node).1

theorem evddEdgeHigh_spec (h : TableInv q s) {e : EVDD} {split : Bool} {r : EVDD × EvddState P}
    (hr : evddEdgeHigh T s e split = some r) : EdgeSpec T s e r := by
  rw [evddEdgeHigh] at hr
  cases split with
  | false =>
    obtain rfl : (e, s) = r := by simpa using hr
    exact .refl s e
  | true =>
    have hfree : s.isFree e.node = (s.key e.node).low.isNone := rfl
    rw [if_pos rfl, hfree] at hr
    cases hk : (s.key e.node).low with
    | none => simp [hk] at hr
    | some low =>
      simp only [hk, Option.isNone_some, Bool.false_eq_true, if_false, Option.some.injEq] at hr
      subst hr
      refine evddEdge_spec h e ?_ fun hw => (hw.valid h e.node).2
      have hhigh : (s.evddnodes e.node).high = (s.key e.node).high := rfl
      simp [EvddState.succ, hk, hhigh]

/-! ## `evdd_apply_rec` -/

section Apply

variable {ops : EvddApplyOps P} {op : ℕ}

/-- The entry of the cache that `evdd_apply_rec` looks at. -/
def applyEntry (s : EvddState P) (a b : EVDD) (op : ℕ) : ℕ :=
  s.evddApplycache.lookup (evddApplyHash a b op)

/-- The result of two terminals. -/
def leafResult (T : ValueTypes P) (r : ValueId × ValueTable P) : EVDD :=
  if evddValueIsZero T r.2 r.1 then evddFalse else ⟨evddTrueNode, r.1⟩

/-- The cases of a call of `evdd_apply_rec` that returns. -/
inductive ApplyCase (T : ValueTypes P) (E : Policy P) (ops : EvddApplyOps P) (op fuel : ℕ)
    (a b : EVDD) (s : EvddState P) (r : EVDD × EvddState P) : Prop
  /-- A cache hit. -/
  | hit (hit : cacheHit s.evddApplycache (applyEntry s a b op) a b op = true)
      (result : r = (⟨(s.evddApplycache.table (applyEntry s a b op)).resNode,
        (s.evddApplycache.table (applyEntry s a b op)).resW⟩, s))
  /-- Two terminals. -/
  | leaf (ha : a.node = evddTrueNode) (hb : b.node = evddTrueNode) (v : ValueId × ValueTable P)
      (value : v = ops op s.values (evddConstValue T s a) (evddConstValue T s b))
      (result : r = (leafResult T v, { s with values := v.2 }.store (applyEntry s a b op)
        a b (evddOpc op) (leafResult T v)))
  /-- A Shannon split. -/
  | split (a₀ b₀ r₀ a₁ b₁ r₁ m : EVDD × EvddState P)
      (inner : ¬ (a.node = evddTrueNode ∧ b.node = evddTrueNode))
      (lowA : evddEdgeLow T s a (evddSplitLevel s a ≤ evddSplitLevel s b) = some a₀)
      (lowB : evddEdgeLow T a₀.2 b (evddSplitLevel s b ≤ evddSplitLevel s a) = some b₀)
      (low : evddApplyRec T E ops op fuel a₀.1 b₀.1 b₀.2 = some r₀)
      (highA : evddEdgeHigh T (r₀.2.pushref r₀.1.node) a
        (evddSplitLevel s a ≤ evddSplitLevel s b) = some a₁)
      (highB : evddEdgeHigh T a₁.2 b (evddSplitLevel s b ≤ evddSplitLevel s a) = some b₁)
      (high : evddApplyRec T E ops op fuel a₁.1 b₁.1 b₁.2 = some r₁)
      (make : m = evddMakenode T E (r₁.2.pushref r₁.1.node)
        (min (evddSplitLevel s a) (evddSplitLevel s b)) r₀.1 r₁.1)
      (result : r = (m.1, (m.2.popref 2).store (applyEntry s a b op) a b (evddOpc op) m.1))

theorem evddApplyRec_cases {fuel : ℕ} {a b : EVDD} {r : EVDD × EvddState P}
    (h : evddApplyRec T E ops op (fuel + 1) a b s = some r) :
    ApplyCase T E ops op fuel a b s r := by
  rw [evddApplyRec] at h
  by_cases hhit : cacheHit s.evddApplycache (applyEntry s a b op) a b op = true
  · have hhit' := hhit
    rw [applyEntry] at hhit'
    simp only [hhit', if_true, Option.some.injEq] at h
    exact .hit hhit h.symm
  · have hhit' := hhit
    rw [applyEntry] at hhit'
    simp only [hhit', Bool.false_eq_true, if_false] at h
    by_cases hleaf : a.node = evddTrueNode ∧ b.node = evddTrueNode
    · rw [if_pos hleaf] at h
      refine .leaf hleaf.1 hleaf.2 _ rfl ?_
      simp only [Option.some.injEq] at h
      exact h.symm
    · rw [if_neg hleaf] at h
      simp only [Option.bind_eq_bind, Option.bind_eq_some_iff] at h
      obtain ⟨a₀, h1, b₀, h2, r₀, h3, a₁, h4, b₁, h5, r₁, h6, h7⟩ := h
      exact .split a₀ b₀ r₀ a₁ b₁ r₁ _ hleaf h1 h2 h3 h4 h5 h6 rfl (Option.some.inj h7).symm

/-- What any sequence of internal steps guarantees. -/
structure Evolves (q : Prop) (T : ValueTypes P) (s s' : EvddState P) : Prop where
  inv : TableInv q s'
  keeps : Keeps s s'
  values : ValueInv T s.values → Extends T s.values s'.values

theorem Evolves.trans (h : Evolves q T s s') (h' : Evolves q T s' s'') : Evolves q T s s'' :=
  ⟨h'.inv, h.keeps.trans h'.keeps, fun hV =>
    (h.values hV).trans (h'.values (h.values hV).inv)⟩

theorem Evolves.valid (h : Evolves q T s s') (hV : ValueInv T s.values) {w : ValueId}
    (hw : s.values.Valid w) : s'.values.Valid w := (h.values hV).valid hw

theorem Evolves.held (h : Evolves q T s s') {n : ℕ} (hn : n = 0 ∨ s.Held n) :
    n = 0 ∨ s'.Held n := hn.imp_right (h.keeps.held n)

theorem Evolves.pushref (h : TableInv q s) (n : ℕ) : Evolves q T s (s.pushref n) :=
  ⟨h.restack _, .pushref s n, fun hV => .refl hV⟩

theorem CallFrame.evolves {operands : List EVDD} {r : EVDD × EvddState P}
    (h : CallFrame q T s operands r) : Evolves q T s r.2 := ⟨h.inv, h.keeps, h.values⟩

theorem EdgeSpec.evolves (h : TableInv q s) {e : EVDD} {r : EVDD × EvddState P}
    (hr : EdgeSpec T s e r) : Evolves q T s r.2 := by
  refine ⟨?_, ?_, hr.values⟩
  · rw [hr.state]
    exact h.setValues _
  · rw [hr.state]
    exact (Keeps.refl s).setValues _

theorem EdgeSpec.weightInv {e : EVDD} {r : EVDD × EvddState P} (hr : EdgeSpec T s e r)
    (hV : ValueInv T s.values) (hw : WeightInv s) : WeightInv r.2 := by
  rw [hr.state]
  exact hw.of_values (hr.values hV).ext

theorem EdgeSpec.graphInv {e : EVDD} {r : EVDD × EvddState P} (hr : EdgeSpec T s e r)
    (hg : GraphInv s) : GraphInv r.2 := by
  rw [hr.state]
  exact hg.setValues _

omit [DecidableEq P] in
theorem WeightInv.pushref (hw : WeightInv s) (n : ℕ) : WeightInv (s.pushref n) :=
  ⟨hw.node, hw.free, hw.cache⟩

omit [DecidableEq P] in
theorem pair_forall {p : EVDD → Prop} {a b : EVDD} (ha : p a) (hb : p b) :
    ∀ e ∈ [a, b], p e := by
  intro e he
  rcases List.mem_pair.mp he with rfl | rfl
  · exact ha
  · exact hb

omit [DecidableEq P] in
theorem splitLevel_lt (h : TableInv q s) (e : EVDD) : evddSplitLevel s e < 2 ^ 21 := by
  rw [evddSplitLevel]
  split
  · decide
  · exact h.level e.node

omit [DecidableEq P] in
/-- Storing a result in the cache. -/
theorem EvddCache.store_valid {c : EvddCache} {i j : ℕ} {a b res : EVDD} {op : ℕ}
    (h : (c.store i a b op res).isValid j = true) :
    j = i ∧ (c.store i a b op res).table j =
        ⟨a.node, a.w, b.node, b.w, op, res.node, res.w, c.currentGeneration⟩ ∨
      c.isValid j = true ∧ (c.store i a b op res).table j = c.table j := by
  by_cases hj : j = i
  · left
    refine ⟨hj, ?_⟩
    rw [hj, EvddCache.store]
    exact Function.update_self ..
  · right
    have ht : (c.store i a b op res).table j = c.table j := Function.update_of_ne hj _ _
    refine ⟨?_, ht⟩
    rw [EvddCache.isValid, ht] at h
    exact h

omit [DecidableEq P] in
theorem TableInv.store (h : TableInv q s) (i : ℕ) (a b : EVDD) (op : ℕ) (res : EVDD) :
    TableInv q (s.store i a b op res) := by
  refine { h with cacheGen := ⟨h.cacheGen.1, fun j => ?_⟩ }
  simp only [EvddState.store, EvddCache.store, Function.update_apply]
  split
  · exact UInt32.le_refl _
  · exact h.cacheGen.2 j

omit [DecidableEq P] in
theorem GraphInv.store (hg : GraphInv s) {i : ℕ} {a b : EVDD} {op : ℕ} {res : EVDD}
    (ha : s.IsNode a.node) (hb : s.IsNode b.node) (hres : s.IsNode res.node) :
    GraphInv (s.store i a b op res) := by
  refine ⟨hg.child, hg.rank, hg.stack, fun j hj n hn => ?_⟩
  rcases EvddCache.store_valid hj with ⟨-, ht⟩ | ⟨hv, ht⟩
  · simp only [EvddState.store, ht, List.mem_cons, List.not_mem_nil, or_false] at hn
    rcases hn with rfl | rfl | rfl
    · exact ha
    · exact hb
    · exact hres
  · simp only [EvddState.store, ht] at hn
    exact hg.cacheLive j hv n hn

omit [DecidableEq P] in
theorem WeightInv.store (hw : WeightInv s) {i : ℕ} {a b : EVDD} {op : ℕ} {res : EVDD}
    (ha : s.values.Valid a.w) (hb : s.values.Valid b.w) (hres : s.values.Valid res.w) :
    WeightInv (s.store i a b op res) := by
  refine ⟨hw.node, hw.free, fun j hj w hwj => ?_⟩
  rcases EvddCache.store_valid hj with ⟨-, ht⟩ | ⟨hv, ht⟩
  · simp only [EvddState.store, ht, List.mem_cons, List.not_mem_nil, or_false] at hwj
    rcases hwj with rfl | rfl | rfl
    · exact ha
    · exact hb
    · exact hres
  · simp only [EvddState.store, ht] at hwj
    exact hw.cache j hv w hwj

theorem cacheHit_valid {c : EvddCache} {i op : ℕ} {a b : EVDD}
    (h : cacheHit c i a b op = true) :
    c.isValid i = true ∧ (c.table i).aNode = a.node ∧ (c.table i).aW = a.w ∧
      (c.table i).bNode = b.node ∧ (c.table i).bW = b.w ∧ (c.table i).op = evddOpc op := by
  simpa [cacheHit, and_assoc] using h

/-- The contract of `evdd_apply_rec`, by induction on the rounds. -/
theorem evddApplyRec_call (hT : LawfulNormalize T) (hop : LawfulOp T (ops op)) (fuel : ℕ)
    {a b : EVDD} {s : EvddState P} {r : EVDD × EvddState P} (h : TableInv q s)
    (hr : evddApplyRec T E ops op fuel a b s = some r) : CallSpec q T s [a, b] r := by
  induction fuel generalizing a b s r with
  | zero => simp [evddApplyRec] at hr
  | succ fuel ih =>
    cases evddApplyRec_cases hr with
    | hit hit result =>
      subst result
      have hv := (cacheHit_valid hit).1
      exact ⟨⟨h, .refl s, rfl, fun hV => .refl hV,
        fun _ hw _ => ⟨hw, hw.cache _ hv _ (by simp)⟩⟩,
        fun hg _ => ⟨hg, hg.cacheLive _ hv _ (by simp)⟩⟩
    | leaf ha hb v value result =>
      have halg := fun hV => hop s.values hV (evddConstValue T s a) (evddConstValue T s b)
      rw [← value] at halg
      subst result
      have hres : ∀ V, V = v.2 → v.2.Valid v.1 → V.Valid (leafResult T v).w := by
        rintro V rfl hv
        rw [leafResult]
        split
        · exact ValueTable.valid_zero _
        · exact hv
      have hnode : (leafResult T v).node = 0 := by
        rw [leafResult]
        split <;> rfl
      have hk : Keeps s ({ s with values := v.2 }.store (applyEntry s a b op) a b
          (evddOpc op)
          (leafResult T v)) := ⟨le_rfl, le_rfl, fun _ h => h, fun _ _ => rfl, fun _ => rfl⟩
      refine ⟨⟨(h.setValues _).store .., hk, rfl, fun hV => (halg hV).ext,
        fun hV hw hop' => ?_⟩, fun hg _ => ?_⟩
      · have hva := hop' a (by simp)
        have hvb := hop' b (by simp)
        have hconst : ∀ e : EVDD, s.values.Valid e.w → s.values.Valid (evddConstValue T s e) := by
          intro e he
          rw [evddConstValue]
          split
          · exact ValueTable.valid_zero _
          · exact he
        have hv := (halg hV).valid (valid_pair (hconst a hva) (hconst b hvb))
        have hext := (halg hV).ext
        exact ⟨(hw.of_values hext.ext).store (hext.valid hva) (hext.valid hvb) (hres _ rfl hv),
          hres _ rfl hv⟩
      · exact ⟨(hg.setValues v.2).store (Or.inl ha) (Or.inl hb) (Or.inl hnode), Or.inl hnode⟩
    | split a₀ b₀ r₀ a₁ b₁ r₁ m inner lowA lowB low highA highB high make result =>
      -- the states one after the other
      have hlevel := lt_of_le_of_lt (Nat.min_le_left _ (evddSplitLevel s b)) (splitLevel_lt h a)
      have ha₀ := evddEdgeLow_spec h lowA
      have e₁ := ha₀.evolves h
      have hb₀ := evddEdgeLow_spec e₁.inv lowB
      have e₂ := hb₀.evolves e₁.inv
      have hr₀ := ih e₂.inv low
      have e₃ := hr₀.evolves
      have p₃ : Evolves q T r₀.2 (r₀.2.pushref r₀.1.node) := .pushref hr₀.inv _
      have ha₁ := evddEdgeHigh_spec p₃.inv highA
      have e₄ := ha₁.evolves p₃.inv
      have hb₁ := evddEdgeHigh_spec e₄.inv highB
      have e₅ := hb₁.evolves e₄.inv
      have hr₁ := ih e₅.inv high
      have e₆ := hr₁.evolves
      have p₆ : Evolves q T r₁.2 (r₁.2.pushref r₁.1.node) := .pushref hr₁.inv _
      have hm := evddMakenode_call (E := E) hT p₆.inv r₀.1 r₁.1 fun _ => hlevel
      rw [← make] at hm
      have e₇ := hm.evolves
      have e₄₆ := (e₄.trans e₅).trans (e₆.trans p₆)
      have e₀₃ := (e₁.trans e₂).trans (e₃.trans p₃)
      have hall := (e₀₃.trans e₄₆).trans e₇
      have hstack : (m.2.popref 2).evddrefstack = s.evddrefstack := by
        have h₁ : r₁.2.evddrefstack = r₀.1.node :: s.evddrefstack := by
          rw [hr₁.refstack, hb₁.state, ha₁.state]
          change r₀.1.node :: r₀.2.evddrefstack = _
          rw [hr₀.refstack, hb₀.state, ha₀.state]
        rw [EvddState.popref, hm.refstack]
        change (r₁.1.node :: r₁.2.evddrefstack).drop 2 = _
        rw [h₁]
        rfl
      subst result
      refine ⟨⟨(hm.inv.restack _).store .., hall.keeps.restack rfl ?_ rfl rfl, hstack,
        hall.values, fun hV hw hop' => ?_⟩, fun hg hop' => ?_⟩
      · change s.evddrefstack ⊆ (m.2.popref 2).evddrefstack
        rw [hstack]
        exact List.Subset.refl _
      · have hva := hop' a (by simp)
        have hvb := hop' b (by simp)
        have hV₁ := (e₁.values hV).inv
        have hV₂ := ((e₁.trans e₂).values hV).inv
        have hV₃ := (e₀₃.values hV).inv
        have hV₄ := ((e₀₃.trans e₄).values hV).inv
        have hV₅ := ((e₀₃.trans (e₄.trans e₅)).values hV).inv
        have hV₆ := ((e₀₃.trans e₄₆).values hV).inv
        have w₁ := ha₀.weightInv hV hw
        have w₂ := hb₀.weightInv hV₁ w₁
        obtain ⟨w₃, v₃⟩ := hr₀.weight hV₂ w₂ (pair_forall
          (e₂.valid hV₁ (ha₀.weight hV hw hva)) (hb₀.weight hV₁ w₁ (e₁.valid hV hvb)))
        have w₄ := ha₁.weightInv hV₃ (w₃.pushref _)
        have w₅ := hb₁.weightInv hV₄ w₄
        obtain ⟨w₆, v₆⟩ := hr₁.weight hV₅ w₅ (pair_forall
          (e₅.valid hV₄ (ha₁.weight hV₃ (w₃.pushref _) (e₀₃.valid hV hva)))
          (hb₁.weight hV₄ w₄ ((e₀₃.trans e₄).valid hV hvb)))
        obtain ⟨w₇, v₇⟩ := hm.weight hV₆ (w₆.pushref _) (pair_forall
          (e₄₆.valid hV₃ v₃) v₆)
        have w₈ : WeightInv (m.2.popref 2) := ⟨w₇.node, w₇.free, w₇.cache⟩
        exact ⟨w₈.store (hall.valid hV hva) (hall.valid hV hvb) v₇, v₇⟩
      · have hna := hop' a (by simp)
        have hnb := hop' b (by simp)
        have g₁ := ha₀.graphInv hg
        have g₂ := hb₀.graphInv g₁
        obtain ⟨g₃, n₃⟩ := hr₀.graph g₂ (pair_forall
          (e₂.held (e₁.held (ha₀.graph hg hna))) (e₂.held (hb₀.graph g₁ (e₁.held hnb))))
        have p₃' := g₃.pushref n₃
        have g₄ := ha₁.graphInv p₃'
        have g₅ := hb₁.graphInv g₄
        obtain ⟨g₆, n₆⟩ := hr₁.graph g₅ (pair_forall
          (e₅.held (e₄.held (ha₁.graph p₃' (e₀₃.held hna))))
          (e₅.held (hb₁.graph g₄ ((e₀₃.trans e₄).held hnb))))
        obtain ⟨g₇, n₇⟩ := hm.graph (g₆.pushref n₆) (pair_forall
          (e₄₆.held (held_pushref n₃)) (held_pushref n₆))
        have hnode : ∀ {n : ℕ}, n = 0 ∨ s.Held n → m.2.IsNode n := fun hn =>
          hall.keeps.isNode hn
        have g₈ : GraphInv (m.2.popref 2) := g₇.restack fun n hn =>
          g₇.stack n (List.mem_of_mem_drop hn)
        exact ⟨g₈.store (hnode hna) (hnode hnb) n₇, n₇⟩

end Apply

/-! ## `evdd_normalize` -/

section Normalize

/-- The memo only holds valid weights. -/
def MemoValid (V : ValueTable P) (memo : EvddNormMemo) : Prop :=
  ∀ n e, memo n = some e → V.Valid e.w

/-- The contract of `evdd_normalize_node`; it leaves further entries on the stack. -/
structure NormalizeFrame (q : Prop) (T : ValueTypes P) (memo : EvddNormMemo)
    (s : EvddState P) (r : EVDD × EvddNormMemo × EvddState P) : Prop where
  evolves : Evolves q T s r.2.2
  refstack : s.evddrefstack <:+ r.2.2.evddrefstack
  weight : ValueInv T s.values → WeightInv s → MemoValid s.values memo →
    WeightInv r.2.2 ∧ MemoValid r.2.2.values r.2.1 ∧ r.2.2.values.Valid r.1.w

omit [DecidableEq P] in
theorem MemoValid.ext {V V' : ValueTable P} {memo : EvddNormMemo} (h : MemoValid V memo)
    (hext : V.Ext V') : MemoValid V' memo := fun n e he => hext.valid (h n e he)

/-- The cases of a call of `evdd_normalize_node` that returns. -/
inductive NormalizeCase (T : ValueTypes P) (E : Policy P) (fuel node : ℕ)
    (memo : EvddNormMemo) (s : EvddState P) (r : EVDD × EvddNormMemo × EvddState P) : Prop
  /-- The terminal. -/
  | const (const : node = evddTrueNode) (result : r = (⟨node, evddValueZero⟩, memo, s))
  /-- A node that was visited before. -/
  | memo (inner : node ≠ evddTrueNode) (e : EVDD) (found : memo node = some e)
      (result : r = (e, memo, s))
  /-- A first visit. -/
  | visit (inner : node ≠ evddTrueNode) (fresh : memo node = none) (lowN : ℕ)
      (child : (s.key node).low = some lowN)
      (low high : EVDD × EvddNormMemo × EvddState P) (m : EVDD × EvddState P)
      (lowRun : normalizeEdge T (evddNormalizeNode T E fuel) lowN
        (fun s => (s.key node).wLow) memo s = some low)
      (highRun : normalizeEdge T (evddNormalizeNode T E fuel) (s.key node).high
        (fun s => (s.key node).wHigh) low.2.1 (low.2.2.pushref low.1.node) = some high)
      (make : m = evddMakenode T E (high.2.2.pushref high.1.node)
        ((high.2.2.pushref high.1.node).key node).level low.1 high.1)
      (result : r = (m.1, Function.update high.2.1 node (some m.1),
        (m.2.popref 2).pushref m.1.node))

theorem evddNormalizeNode_cases {fuel node : ℕ} {memo : EvddNormMemo}
    {r : EVDD × EvddNormMemo × EvddState P}
    (h : evddNormalizeNode T E (fuel + 1) node (memo, s) = some r) :
    NormalizeCase T E fuel node memo s r := by
  rw [evddNormalizeNode] at h
  by_cases hn : node = evddTrueNode
  · rw [if_pos hn] at h
    exact .const hn (Option.some.inj h).symm
  rw [if_neg hn] at h
  cases hm : memo node with
  | some e =>
    simp only [hm, Option.some.injEq] at h
    exact .memo hn e hm h.symm
  | none =>
    have hk : (s.evddnodes node).low = (s.key node).low := rfl
    cases hl : (s.key node).low with
    | none => simp [hm, hk, hl] at h
    | some lowN =>
      simp only [hm, hk, hl, Option.bind_eq_bind, Option.bind_eq_some_iff] at h
      obtain ⟨low, h1, high, h2, h3⟩ := h
      exact .visit hn hm lowN hl low high _ h1 h2 rfl (Option.some.inj h3).symm

/-- One child of `evdd_normalize_node`, given the contract of the recursive call. -/
theorem normalizeEdge_frame {fuel child : ℕ} {w : EvddState P → ValueId} {memo : EvddNormMemo}
    {r : EVDD × EvddNormMemo × EvddState P} (h : TableInv q s)
    (hw : ∀ t : EvddState P, TableInv q t → WeightInv t → t.values.Valid (w t))
    (ih : ∀ {r : EVDD × EvddNormMemo × EvddState P},
      evddNormalizeNode T E fuel child (memo, s) = some r → NormalizeFrame q T memo s r)
    (hr : normalizeEdge T (evddNormalizeNode T E fuel) child w memo s = some r) :
    NormalizeFrame q T memo s r := by
  rw [normalizeEdge] at hr
  split at hr
  · obtain rfl := Option.some.inj hr
    exact ⟨⟨h, .refl s, fun hV => .refl hV⟩, List.suffix_rfl,
      fun hV hwi hm => ⟨hwi, hm, hw s h hwi⟩⟩
  · simp only [Option.bind_eq_bind, Option.bind_eq_some_iff] at hr
    obtain ⟨e, he, hr⟩ := hr
    obtain rfl := Option.some.inj hr
    have hf := ih he
    have halg := fun hV : ValueInv T e.2.2.values =>
      evddValueMul_algebraic hV (w e.2.2) e.1.w
    have hev : Evolves q T e.2.2 { e.2.2 with
        values := (evddValueMul T e.2.2.values (w e.2.2) e.1.w).2 } :=
      ⟨hf.evolves.inv.setValues _, (Keeps.refl _).setValues _, fun hV => (halg hV).ext⟩
    refine ⟨hf.evolves.trans hev, hf.refstack, fun hV hwi hm => ?_⟩
    obtain ⟨hwi', hm', hv'⟩ := hf.weight hV hwi hm
    have hV' := (hf.evolves.values hV).inv
    exact ⟨hwi'.of_values (halg hV').ext.ext, hm'.ext (halg hV').ext.ext,
      (halg hV').valid (valid_pair (hw _ hf.evolves.inv hwi') hv')⟩

/-- The stack after a first visit still ends in the caller's entries. -/
theorem visit_suffix {σ low high : List ℕ} {a b : ℕ} (h₁ : σ <:+ low)
    (h₂ : a :: low <:+ high) : σ <:+ (b :: high).drop 2 := by
  obtain ⟨l, rfl⟩ := h₂
  cases l with
  | nil => simpa using h₁
  | cons c l =>
    simp only [List.cons_append, List.drop_succ_cons, List.drop_zero]
    exact (h₁.trans (List.suffix_cons a low)).trans (List.suffix_append l _)

theorem evddNormalizeNode_frame (hT : LawfulNormalize T) (fuel : ℕ) {node : ℕ}
    {memo : EvddNormMemo} {s : EvddState P} {r : EVDD × EvddNormMemo × EvddState P}
    (h : TableInv q s) (hr : evddNormalizeNode T E fuel node (memo, s) = some r) :
    NormalizeFrame q T memo s r := by
  induction fuel generalizing node memo s r with
  | zero => simp [evddNormalizeNode] at hr
  | succ fuel ih =>
    have hrefl : Evolves q T s s := ⟨h, .refl s, fun hV => .refl hV⟩
    cases evddNormalizeNode_cases hr with
    | const const result =>
      subst result
      exact ⟨hrefl, List.suffix_rfl, fun _ hw hm => ⟨hw, hm, ValueTable.valid_zero _⟩⟩
    | memo inner e found result =>
      subst result
      exact ⟨hrefl, List.suffix_rfl, fun _ hw hm => ⟨hw, hm, hm node e found⟩⟩
    | visit inner fresh lowN child low high m lowRun highRun make result =>
      have hl := normalizeEdge_frame h (fun t hi ht => (ht.valid hi node).1) (ih h) lowRun
      have p₁ : Evolves q T low.2.2 (low.2.2.pushref low.1.node) := .pushref hl.evolves.inv _
      have hh := normalizeEdge_frame p₁.inv (fun t hi ht => (ht.valid hi node).2) (ih p₁.inv) highRun
      have p₂ : Evolves q T high.2.2 (high.2.2.pushref high.1.node) := .pushref hh.evolves.inv _
      have hm := evddMakenode_call (E := E) hT p₂.inv low.1 high.1 fun _ => p₂.inv.level node
      rw [← make] at hm
      have e₁ := hl.evolves.trans p₁
      have e₂ := hh.evolves.trans p₂
      have hall := (e₁.trans e₂).trans hm.evolves
      have hsuf : s.evddrefstack <:+ (m.2.popref 2).evddrefstack := by
        rw [EvddState.popref, hm.refstack]
        exact visit_suffix (b := high.1.node) hl.refstack hh.refstack
      subst result
      refine ⟨⟨(hm.inv.restack _), hall.keeps.restack rfl ?_ rfl rfl, hall.values⟩, ?_,
        fun hV hwi hmemo => ?_⟩
      · exact fun n hn => List.mem_cons_of_mem _ (hsuf.subset hn)
      · exact hsuf.trans (List.suffix_cons _ _)
      · obtain ⟨w₁, m₁, v₁⟩ := hl.weight hV hwi hmemo
        have hV₁ := (e₁.values hV).inv
        obtain ⟨w₂, m₂, v₂⟩ := hh.weight hV₁ (w₁.pushref _) m₁
        have hV₂ := ((e₁.trans e₂).values hV).inv
        obtain ⟨w₃, v₃⟩ := hm.weight hV₂ (w₂.pushref _) (pair_forall (e₂.valid hV₁ v₁) v₂)
        refine ⟨⟨w₃.node, w₃.free, w₃.cache⟩, fun n e he => ?_, v₃⟩
        by_cases hn : n = node
        · have he' : Function.update high.2.1 node (some m.1) n = some e := he
          rw [hn, Function.update_self] at he'
          obtain rfl := Option.some.inj he'
          exact v₃
        · have he' : Function.update high.2.1 node (some m.1) n = some e := he
          rw [Function.update_of_ne hn] at he'
          exact (hm.values hV₂).valid (m₂ n e he')

end Normalize

/-! ## The public calls -/

omit [DecidableEq P] in
theorem TableInv.error (h : TableInv q s) (e : BddError) : TableInv q (s.error e) :=
  h.congr rfl rfl ⟨rfl, rfl⟩ ⟨rfl, rfl⟩ rfl

omit [DecidableEq P] in
theorem Keeps.error (s : EvddState P) (e : BddError) : Keeps s (s.error e) := by
  refine ⟨le_rfl, ?_, fun _ h => h, fun _ _ => rfl, fun _ => rfl⟩
  simp only [EvddState.nodenums, EvddState.error]
  exact List.count_le_count_cons

omit [DecidableEq P] in
theorem GraphInv.error (h : GraphInv s) (e : BddError) : GraphInv (s.error e) :=
  ⟨h.child, h.rank, h.stack, h.cacheLive⟩

omit [DecidableEq P] in
theorem WeightInv.error (h : WeightInv s) (e : BddError) : WeightInv (s.error e) :=
  ⟨h.node, h.free, h.cache⟩

/-- A refused call. -/
theorem CallSpec.error (h : TableInv q s) (e : BddError) (operands : List EVDD) :
    CallSpec q T s operands (evddFalse, s.error e) :=
  ⟨⟨h.error e, .error s e, rfl, fun hV => .refl hV,
    fun _ hw _ => ⟨hw.error e, ValueTable.valid_zero _⟩⟩,
    fun hg _ => ⟨hg.error e, Or.inl rfl⟩⟩

/-- `evdd_normalize` on any edge. -/
theorem evddNormalize_frame (hT : LawfulNormalize T) (h : TableInv q s) {root : EVDD}
    {r : EVDD × EvddState P} (hr : evddNormalize T E s root = some r) :
    CallFrame q T s [root] r := by
  rw [evddNormalize, h.running.1] at hr
  simp only [Bool.not_true, Bool.false_eq_true, if_false] at hr
  split at hr
  · obtain rfl := Option.some.inj hr
    exact (CallSpec.error h .illbdd [root]).toCallFrame
  split at hr
  · obtain rfl := Option.some.inj hr
    exact ⟨h, .refl s, rfl, fun hV => .refl hV, fun _ hw hop => ⟨hw, hop root (by simp)⟩⟩
  · simp only [Option.bind_eq_bind, Option.bind_eq_some_iff] at hr
    obtain ⟨out, hout, hr⟩ := hr
    obtain rfl := Option.some.inj hr
    have p₁ : Evolves q T s (s.pushref root.node) := .pushref h _
    have hf := evddNormalizeNode_frame hT _ p₁.inv hout
    have hall := p₁.trans hf.evolves
    have halg := fun hV : ValueInv T out.2.2.values =>
      evddValueMul_algebraic hV root.w out.1.w
    have hinv := hf.evolves.inv.setValues (evddValueMul T out.2.2.values root.w out.1.w).2
    have hkeeps := hall.keeps.setValues (evddValueMul T out.2.2.values root.w out.1.w).2
    refine ⟨hinv.restack _, hkeeps.restack rfl (List.Subset.refl _) rfl rfl, rfl,
      fun hV => (hall.values hV).trans (halg (hall.values hV).inv).ext, fun hV hw hop => ?_⟩
    obtain ⟨w₁, -, v₁⟩ := hf.weight hV (hw.pushref _) fun n e he => by simp at he
    have hV' := (hall.values hV).inv
    have w₂ := w₁.of_values (halg hV').ext.ext
    exact ⟨⟨w₂.node, w₂.free, w₂.cache⟩,
      (halg hV').valid (valid_pair (hall.valid hV (hop root (by simp))) v₁)⟩

/-- `evdd_apply` on any two edges; the operands need not be held, they are pushed. -/
theorem evddApply_call {ops : EvddApplyOps P} {op : ℕ} (hT : LawfulNormalize T)
    (hop : LawfulOp T (ops op)) (h : TableInv q s) {a b : EVDD} {r : EVDD × EvddState P}
    (hr : evddApply T E ops s a b op = some r) :
    CallFrame q T s [a, b] r ∧ (GraphInv s → GraphInv r.2 ∧ r.2.IsNode r.1.node) := by
  rw [evddApply, h.running.1, h.running.2] at hr
  simp only [Bool.not_true, Bool.false_eq_true, if_false] at hr
  split at hr
  · obtain rfl := Option.some.inj hr
    exact ⟨(CallSpec.error h .op [a, b]).toCallFrame, fun hg => ⟨hg.error _, Or.inl rfl⟩⟩
  split at hr
  · obtain rfl := Option.some.inj hr
    exact ⟨(CallSpec.error h .illbdd [a, b]).toCallFrame, fun hg => ⟨hg.error _, Or.inl rfl⟩⟩
  · rename_i hvalid
    simp only [Option.bind_eq_bind, Option.bind_eq_some_iff] at hr
    obtain ⟨out, hout, hr⟩ := hr
    obtain rfl := Option.some.inj hr
    have p₁ : Evolves q T s (s.pushref a.node) := .pushref h _
    have p₂ : Evolves q T (s.pushref a.node) ((s.pushref a.node).pushref b.node) :=
      .pushref p₁.inv _
    have hf := evddApplyRec_call hT hop _ p₂.inv hout
    have hall := (p₁.trans p₂).trans hf.evolves
    refine ⟨⟨hf.inv.restack _, hall.keeps.restack rfl (List.Subset.refl _) rfl rfl, rfl,
      hall.values, fun hV hw hop' => ?_⟩, fun hg => ?_⟩
    · obtain ⟨w₁, v₁⟩ := hf.weight hV ((hw.pushref _).pushref _) hop'
      exact ⟨⟨w₁.node, w₁.free, w₁.cache⟩, v₁⟩
    · have hnode : ∀ {n : ℕ}, ¬ (n ≠ evddTrueNode ∧ s.isFree n = true) → s.IsNode n := by
        intro n hn
        by_cases h0 : n = 0
        · exact Or.inl h0
        · right
          rw [isFree_eq h0] at hn
          simpa [h0] using hn
      have hna : s.IsNode a.node := hnode (by tauto)
      have hnb : s.IsNode b.node := hnode (by tauto)
      have g₂ : GraphInv ((s.pushref a.node).pushref b.node) := (hg.pushref hna).pushref hnb
      obtain ⟨g₃, n₃⟩ := hf.graph g₂ (pair_forall
        ((held_pushref hna).imp_right (p₂.keeps.held _)) (held_pushref hnb))
      refine ⟨g₃.restack fun n hn => ?_, n₃⟩
      refine g₃.stack n ?_
      rw [hf.refstack]
      exact List.mem_cons_of_mem _ (List.mem_cons_of_mem _ hn)

end MoToBuddy.Evdd
