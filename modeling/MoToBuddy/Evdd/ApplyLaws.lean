import MoToBuddy.Evdd.Denote

/-!
# What `evdd_makenode` and `evdd_apply` compute

`evdd_makenode` is the constructor of weighted trees (`evddMakenode_makes`), and `evdd_apply`
the pointwise operation on the functions of its operands. The operator cache only ever holds
results of that kind (`CacheSound`), whatever was computed and collected before.
-/

namespace MoToBuddy.Evdd

open Weighted Chained Marking

variable {K : Type*} [Field K] [DecidableEq K] {T : ValueTypes K} {E : Policy K} {t : ℕ}
  {factor g : K → K → K} {s s' : EvddState K} {a b e low high : EVDD} {level : ℕ}

/-! ## `evdd_makenode` -/

omit [Field K] in
/-- Nodes that `evdd_makenode` pushes keep what is below them. -/
theorem MakeSpec.untouched {q : Prop} {N : EvddNormResult × ValueTable K}
    {U : ValueId × ValueTable K} {r : EVDD × EvddState K} (hm : MakeSpec T q s level low high N U r)
    (hs : Consistent T s) (hl : s.IsNode low.node) (hh : s.IsNode high.node) :
    ∃ D : ℕ → Prop, Untouched s r.2 D ∧ D low.node ∧ D high.node := by
  have hp := (hs.pushref hl).pushref (n := high.node) hh
  refine ⟨fun n => n = evddTrueNode ∨ ((s.pushref low.node).pushref high.node).Held n,
    ⟨fun n hn h0 => hm.pushed n (hn.resolve_left h0), fun n hn _ m hm' => ?_⟩, ?_, ?_⟩
  · exact held_child hp.table hp.graph hn hm'
  · exact (held_pushref hl).imp_right ((Keeps.pushref _ high.node).held _)
  · exact held_pushref (s := s.pushref low.node) hh

/-- `evdd_makenode` builds the decision between its operands, unless it runs out of nodes. -/
theorem evddMakenode_makes (hT : LawfulNormalize T) (hX : ExactField T t)
    (hN : Normalizing T t factor) (hs : Consistent T s) (hlevel : level ≤ evddMaxlevel)
    (hnl : s.IsNode low.node) (hnh : s.IsNode high.node) {wl wh : WEdge K}
    (hl : s.Denotes t low wl) (hh : s.Denotes t high wh)
    (hroom : (evddMakenode T E s level low high).2.nodenums = s.nodenums) :
    ∃ w, (evddMakenode T E s level low high).2.Edge
        ((evddMakenode T E s level low high).2.values.weight t)
        (evddMakenode T E s level low high).1 w.1 w.2 ∧
      Makes factor True level wl wh w := by
  have hlt : level < 2 ^ 21 := Nat.lt_succ_of_le hlevel
  have hm := evddMakenode_spec T E hs.table low high (fun _ => hlt) rfl rfl
  have hc := evddMakenode_call (E := E) hT hs.table low high fun _ => hlt
  have hext := (hc.values hs.values).ext
  have hnext := (evddValueNormalize_spec hT hs.values low.w high.w).ext
  have hW := hN.spec s.values hs.values low.w high.w wl.1 wh.1 hl.1.1 hh.1.1
  generalize hNdef : evddValueNormalize T s.values low.w high.w = N at hm hnext hW
  generalize evddMakenode T E s level low high = r at hm hc hext hroom ⊢
  obtain ⟨D, hD, hDl, hDh⟩ := hm.untouched hs hnl hnh
  have hl' := (hD.denotes_iff hs.weight hs.table hext.means hDl (valid_of_weight hl.1.1)).mpr hl
  have hh' := (hD.denotes_iff hs.weight hs.table hext.means hDh (valid_of_weight hh.1.1)).mpr hh
  have hzero : evddValueIsZero T N.2 N.1.incoming = true ↔ factor wl.1 wh.1 = 0 :=
    isZero_iff hX hnext.inv hW.incoming
  cases hm.outcome with
  | zero zero edge values nodenums =>
    have hz := hN.ne_zero _ _ (hzero.mp zero)
    refine ⟨(0, .leaf), ?_, .zero hz.1 hz.2⟩
    rw [edge]
    exact ⟨weight_zero _ t, .leaf⟩
  | skip zero same edge values nodenums =>
    have hf : factor wl.1 wh.1 ≠ 0 := fun h => by simp [hzero.mpr h] at zero
    have hne : wl.1 ≠ 0 ∨ wh.1 ≠ 0 := by
      by_contra h
      push Not at h
      rw [h.1, h.2, hN.zero] at hf
      exact hf rfl
    have hmul := weight_mul hX hnext.inv hW.incoming hW.low
    rw [mul_div_cancel₀ _ hf, ← values] at hmul
    -- equal ids are equal quotients, so the operands had equal weights
    have hquot : wl.1 / factor wl.1 wh.1 = wh.1 / factor wl.1 wh.1 := by
      have hhigh := hW.high
      rw [← same.2, hW.low] at hhigh
      exact Option.some.inj hhigh
    have htree : wl.2 = wh.2 := by
      have hlow := hl.1.2
      rw [same.1] at hlow
      exact hlow.unique hh.1.2
    have hw : wl.1 = wh.1 := by rwa [div_left_inj' hf] at hquot
    refine ⟨wl, ?_, .skip hne (Prod.ext hw htree)⟩
    rw [edge]
    exact ⟨hmul, hl'.1.2⟩
  | full zero node weight values nodenums => omega
  | node zero differ live key weight values nodenums =>
    have hf : factor wl.1 wh.1 ≠ 0 := fun h => by simp [hzero.mpr h] at zero
    have hne : wl.1 ≠ 0 ∨ wh.1 ≠ 0 := by
      by_contra h
      push Not at h
      rw [h.1, h.2, hN.zero] at hf
      exact hf rfl
    have hneq : wl.1 / factor wl.1 wh.1 ≠ 0 ∨ wh.1 / factor wl.1 wh.1 ≠ 0 := by
      simpa [div_eq_zero_iff, hf] using hne
    have hunit := weight_unitFromPair hX hnext.inv hW.low hW.high hneq
    have hUext := (evddValueUnitFromPair_algebraic hnext.inv N.1.wLow N.1.wHigh).ext
    have hmul := weight_mul hX hUext.inv (hUext.ext.weight hW.incoming) hunit
    have hmore := hUext.trans (evddValueMul_algebraic hUext.inv N.1.incoming
      (evddValueUnitFromPair T N.2 N.1.wLow N.1.wHigh).1).ext
    rw [mul_one, ← values, ← weight] at hmul
    rw [← values] at hmore
    refine ⟨(factor wl.1 wh.1, .node level (wl.1 / factor wl.1 wh.1) wl.2
      (wh.1 / factor wl.1 wh.1) wh.2), ⟨hmul, ?_⟩, .node hne fun _ heq => differ ⟨?_, ?_⟩⟩
    · refine .node (EvddState.live_iff.mp live).1 ?_ (hmore.ext.weight hW.low)
        (hmore.ext.weight hW.high) hl'.1.2 hh'.1.2
      rw [key, rawKey, Nat.mod_eq_of_lt hlt]
    · rw [heq] at hl
      exact hl.1.2.inj hX hs.table hs.values hh.1.2
    · apply weight_inj hX hnext.inv hW.low
      rw [show wl.1 = wh.1 from congrArg Prod.fst heq] at hW ⊢
      exact hW.high

/-- `evdd_makenode_raw` leaves the weights as they are, and skips a node only if its edges are
equal. -/
theorem evddMakenodeRaw_denotes (hX : ExactField T t) (hs : Consistent T s)
    (hl : s.Handle low) (hh : s.Handle high) {wl wh : WEdge K} (hwl : s.Denotes t low wl)
    (hwh : s.Denotes t high wh) (hlow : level < wl.2.topLevel evddMaxlevel)
    (hhigh : level < wh.2.topLevel evddMaxlevel) (hne : wl.1 ≠ 0 ∨ wh.1 ≠ 0)
    (hroom : (evddMakenodeRaw T E s level low high).2.nodenums = s.nodenums) :
    (evddMakenodeRaw T E s level low high).2.Denotes t (evddMakenodeRaw T E s level low high).1
      (if low = high then wl else (1, .node level wl.1 wl.2 wh.1 wh.2)) := by
  have hlt : level < 2 ^ 21 := hlow.trans_le ((WTree.topLevel_le hwl.2).trans (by decide))
  obtain ⟨-, ho, -⟩ := evddMakenodeRaw_spec T E hs.table low high fun _ => hlt
  have hc := evddMakenodeRaw_frame (T := T) (E := E) hs.table low high fun _ => hlt
  have hsame : low.node = high.node ∧ low.w = high.w ↔ low = high := by
    cases low
    cases high
    simp
  generalize evddMakenodeRaw T E s level low high = r at ho hc hroom ⊢
  cases ho with
  | skip same edge state =>
    rw [if_pos (hsame.mp same), edge, state]
    exact hwl
  | full differ edge values nodenums => omega
  | node differ live key weight values nodenums =>
    have hwl' := (hc.evolves.denotes_iff hs hl).mpr hwl
    have hwh' := (hc.evolves.denotes_iff hs hh).mpr hwh
    have hunit := weight_unitFromPair hX hs.values hwl.1.1 hwh.1.1 hne
    rw [← values, ← weight] at hunit
    rw [if_neg (mt hsame.mpr differ)]
    refine ⟨⟨hunit, .node (EvddState.live_iff.mp live).1 ?_ hwl'.1.1 hwh'.1.1 hwl'.1.2 hwh'.1.2⟩,
      hlow, hhigh, hwl.2, hwh.2⟩
    rw [key, rawKey, Nat.mod_eq_of_lt hlt]

/-! ## Cofactors -/

omit [DecidableEq K] in
/-- The level that `evdd_apply_rec` compares is that of the tree. -/
theorem EvddState.Denotes.splitLevel {w : WEdge K} (h : s.Denotes t e w) :
    evddSplitLevel s e = w.2.topLevel evddMaxlevel := by
  obtain ⟨⟨-, hτ⟩, -⟩ := h
  unfold evddSplitLevel
  generalize w.2 = τ at hτ
  generalize e.node = n at hτ
  cases hτ with
  | leaf => rfl
  | node inner key _ _ _ _ =>
    rw [if_neg inner]
    exact congrArg EvddKey.level key

/-- One side of a node, with the weight of the edge multiplied in. -/
theorem evddEdge_denotes (hX : ExactField T t) (hs : Consistent T s) {c x : K} {τ : WTree K}
    {child : ℕ} {id : ValueId} (he : s.values.weight t e.w = some c)
    (hid : s.values.weight t id = some x) (hchild : s.Unfolds (s.values.weight t) child τ)
    (hord : τ.Ordered evddMaxlevel) :
    (evddEdge T s e child id).2.Denotes t (evddEdge T s e child id).1 (c * x, τ) := by
  have hext := (evddValueMul_algebraic hs.values e.w id).ext
  have hd : s.Denotes t ⟨child, id⟩ (x, τ) := ⟨⟨hid, hchild⟩, hord⟩
  have hd' := (hs.denotes_setValues hext.ext hchild.isNode (valid_of_weight hid)).mpr hd
  exact ⟨⟨weight_mul hX hs.values he hid, hd'.1.2⟩, hord⟩

section Cofactor

variable {split : Bool} {w : WEdge K} {r : EVDD × EvddState K}

theorem evddEdgeLow_denotes (hX : ExactField T t) (hs : Consistent T s) (he : s.Denotes t e w)
    (hM : level < evddMaxlevel) (hsplit : split = true ↔ level = w.2.topLevel evddMaxlevel)
    (hr : evddEdgeLow T s e split = some r) : r.2.Denotes t r.1 (w.cof level false) := by
  rw [evddEdgeLow] at hr
  cases split with
  | false =>
    obtain rfl : (e, s) = r := by simpa using hr
    rwa [WEdge.cof_skip (mt hsplit.mpr Bool.false_ne_true)]
  | true =>
    have hlevel := hsplit.mp rfl
    obtain ⟨c, τ⟩ := w
    obtain ⟨n, we⟩ := e
    obtain ⟨⟨hc, hτ⟩, hord⟩ := he
    cases hτ with
    | leaf => exact absurd hlevel hM.ne
    | node inner key hl hh below above =>
      have hlow : (s.evddnodes n).low = some _ := congrArg EvddKey.low key
      have hwl : (s.evddnodes n).wLow = _ := congrArg EvddKey.wLow key
      simp only [if_pos, hlow, hwl, Option.some.injEq] at hr
      subst hr
      rw [show level = _ from hlevel, WTree.topLevel, WEdge.cof_node]
      exact evddEdge_denotes hX hs hc hl below hord.2.2.1

theorem evddEdgeHigh_denotes (hX : ExactField T t) (hs : Consistent T s) (he : s.Denotes t e w)
    (hM : level < evddMaxlevel) (hsplit : split = true ↔ level = w.2.topLevel evddMaxlevel)
    (hr : evddEdgeHigh T s e split = some r) : r.2.Denotes t r.1 (w.cof level true) := by
  rw [evddEdgeHigh] at hr
  cases split with
  | false =>
    obtain rfl : (e, s) = r := by simpa using hr
    rwa [WEdge.cof_skip (mt hsplit.mpr Bool.false_ne_true)]
  | true =>
    have hlevel := hsplit.mp rfl
    obtain ⟨c, τ⟩ := w
    obtain ⟨n, we⟩ := e
    obtain ⟨⟨hc, hτ⟩, hord⟩ := he
    cases hτ with
    | leaf => exact absurd hlevel hM.ne
    | node inner key hl hh below above =>
      have hlow : (s.evddnodes n).low = some _ := congrArg EvddKey.low key
      have hhigh : (s.evddnodes n).high = _ := congrArg EvddKey.high key
      have hwh : (s.evddnodes n).wHigh = _ := congrArg EvddKey.wHigh key
      simp only [EvddState.isFree, if_pos, hlow, hhigh, hwh, Option.isNone_some,
        Bool.false_eq_true, if_false, Option.some.injEq] at hr
      subst hr
      rw [show level = _ from hlevel, WTree.topLevel, WEdge.cof_node]
      exact evddEdge_denotes hX hs hc hh above hord.2.2.2

end Cofactor

/-! ## `evdd_apply` -/

/-- The operation on ids is an operation of the field, and the type normalises by dividing by
a common factor. -/
structure Meaning (T : ValueTypes K) (t : ℕ)
    (f : ValueTable K → ValueId → ValueId → ValueId × ValueTable K) (g factor : K → K → K) :
    Prop where
  field : ExactField T t
  norm : Normalizing T t factor
  exact : ∀ V, ValueInv T V → ∀ a b x y, V.weight t a = some x → V.weight t b = some y →
    (f V a b).2.weight t (f V a b).1 = some (g x y)

/-- The result of an operation on two edges. -/
structure Applies (g factor : K → K → K) (wa wb w : WEdge K) : Prop where
  ordered : w.2.Ordered evddMaxlevel
  level : min (wa.2.topLevel evddMaxlevel) (wb.2.topLevel evddMaxlevel) ≤
    w.2.topLevel evddMaxlevel
  val : ∀ x, w.val x = g (wa.val x) (wb.val x)
  red : Scales factor → RedEdge evddMaxlevel factor w

/-- The edge `r.1` is the result of operation `f` on the edges `a` and `b` of `s`. -/
def Delivers (T : ValueTypes K)
    (f : ValueTable K → ValueId → ValueId → ValueId × ValueTable K) (s : EvddState K) (a b : EVDD)
    (r : EVDD × EvddState K) : Prop :=
  ∀ t g factor, Meaning T t f g factor → ∀ wa wb, s.Denotes t a wa → s.Denotes t b wb →
    ∃ w, r.2.Denotes t r.1 w ∧ Applies g factor wa wb w

/-- What the operator cache holds are results, of every operation that it is found for. -/
def CacheSound (T : ValueTypes K) (ops : EvddApplyOps K) (s : EvddState K) : Prop :=
  ∀ i, s.evddApplycache.isValid i = true →
    let d := s.evddApplycache.table i
    ∀ op, d.op = evddOpc op →
      Delivers T (ops op) s ⟨d.aNode, d.aW⟩ ⟨d.bNode, d.bW⟩ (⟨d.resNode, d.resW⟩, s)

omit [DecidableEq K] in
/-- The decision between the results for the cofactors is the result. -/
theorem Applies.make {wa wb w₀ w₁ w : WEdge K} (hf : CommonFactor factor)
    (ha : wa.2.Ordered evddMaxlevel) (hb : wb.2.Ordered evddMaxlevel)
    (hlevel : level = min (wa.2.topLevel evddMaxlevel) (wb.2.topLevel evddMaxlevel))
    (hM : level < evddMaxlevel) (h₀ : Applies g factor (wa.cof level false) (wb.cof level false) w₀)
    (h₁ : Applies g factor (wa.cof level true) (wb.cof level true) w₁)
    (hw : Makes factor True level w₀ w₁ w) : Applies g factor wa wb w := by
  have hla : level ≤ wa.2.topLevel evddMaxlevel := by omega
  have hlb : level ≤ wb.2.topLevel evddMaxlevel := by omega
  have hlt₀ : level < w₀.2.topLevel evddMaxlevel := by
    have := h₀.level
    have := (WEdge.cof_ordered ha hM hla false).2
    have := (WEdge.cof_ordered hb hM hlb false).2
    omega
  have hlt₁ : level < w₁.2.topLevel evddMaxlevel := by
    have := h₁.level
    have := (WEdge.cof_ordered ha hM hla true).2
    have := (WEdge.cof_ordered hb hM hlb true).2
    omega
  obtain ⟨hord, hle⟩ := hw.ordered h₀.ordered h₁.ordered hlt₀ hlt₁
  refine ⟨hord, by omega, fun x => ?_, fun hs => ?_⟩
  · rw [hw.val_eq hf x, ← WEdge.val_cof level wa x, ← WEdge.val_cof level wb x]
    cases x level
    · exact h₀.val x
    · exact h₁.val x
  · exact hw.redEdge hf hs trivial (h₀.red hs) (h₁.red hs) hlt₀ hlt₁

omit [DecidableEq K] in
/-- Whatever is not part of a node or of a value does not matter. -/
theorem EvddState.denotes_congr (hnodes : s'.evddnodes = s.evddnodes)
    (hvalues : s'.values = s.values) {w : WEdge K} : s'.Denotes t e w ↔ s.Denotes t e w := by
  have hD : Untouched s s' fun _ => True :=
    ⟨fun n _ _ => by rw [EvddState.key, hnodes]; rfl, fun _ _ _ _ _ => trivial⟩
  unfold EvddState.Denotes EvddState.Edge
  rw [hvalues, hD.unfolds_iff (fun _ _ _ _ _ => rfl) trivial]

omit [DecidableEq K] in
theorem EvddState.denotes_pushref {n : ℕ} {w : WEdge K} :
    (s.pushref n).Denotes t e w ↔ s.Denotes t e w := by
  apply EvddState.denotes_congr <;> rfl

omit [DecidableEq K] in
theorem EvddState.denotes_restack {l : List ℕ} {w : WEdge K} :
    EvddState.Denotes { s with evddrefstack := l } t e w ↔ s.Denotes t e w := by
  apply EvddState.denotes_congr <;> rfl

omit [DecidableEq K] in
theorem EvddState.denotes_store {i op : ℕ} {res : EVDD} {w : WEdge K} :
    (s.store i a b op res).Denotes t e w ↔ s.Denotes t e w := by
  apply EvddState.denotes_congr <;> rfl

omit [DecidableEq K] in
/-- A node is above the level of the terminal. -/
theorem EvddState.Denotes.level_lt {w : WEdge K} (h : s.Denotes t e w)
    (hn : e.node ≠ evddTrueNode) : w.2.topLevel evddMaxlevel < evddMaxlevel := by
  obtain ⟨⟨-, hτ⟩, hord⟩ := h
  generalize w.2 = τ at hτ hord
  generalize e.node = n at hτ hn
  cases hτ with
  | leaf => exact absurd rfl hn
  | node inner key hl hh below above => exact hord.1.trans_le (WTree.topLevel_le hord.2.2.1)

omit [DecidableEq K] in
/-- An edge to the terminal denotes its weight. -/
theorem EvddState.Denotes.const {w : WEdge K} (h : s.Denotes t e w) (hn : e.node = evddTrueNode) :
    s.values.weight t e.w = some w.1 ∧ w.2 = .leaf := by
  obtain ⟨⟨hc, hτ⟩, -⟩ := h
  rw [hn] at hτ
  exact ⟨hc, hτ.unique .leaf⟩

omit [Field K] [DecidableEq K] in
theorem CacheStable.of_nodes (hcache : s'.evddApplycache = s.evddApplycache)
    (hnodes : s'.evddnodes = s.evddnodes) : CacheStable s s' := by
  refine Or.inr ⟨hcache, fun n hn => ?_⟩
  have hkey : s'.key n = s.key n := by
    rw [EvddState.key, hnodes]
    rfl
  exact ⟨(EvddState.live_congr hkey).trans hn, hkey⟩

theorem CacheSound.stable {ops : EvddApplyOps K} (hc : CacheSound T ops s) (hs : Consistent T s)
    (hst : CacheStable s s') (hmeans : s.values.Means s'.values) : CacheSound T ops s' := by
  intro i hi
  rcases hst with hflush | ⟨hcache, hkey⟩
  · rw [hflush i] at hi
    exact absurd hi Bool.false_ne_true
  · rw [hcache] at hi ⊢
    intro d op hop t g factor hm wa wb ha hb
    have hnode : ∀ n ∈ [d.aNode, d.bNode, d.resNode], s.IsNode n := hs.graph.cacheLive i hi
    have hvalid : ∀ w ∈ [d.aW, d.bW, d.resW], s.values.Valid w := hs.weight.cache i hi
    have hd : Delivers T (ops op) s ⟨d.aNode, d.aW⟩ ⟨d.bNode, d.bW⟩ (⟨d.resNode, d.resW⟩, s) :=
      hc i hi op hop
    clear_value d
    have ha' := (hs.denotes_iff hkey hmeans (hnode _ (by simp)) (hvalid _ (by simp))).mp ha
    have hb' := (hs.denotes_iff hkey hmeans (hnode _ (by simp)) (hvalid _ (by simp))).mp hb
    obtain ⟨w, hw, happ⟩ := hd t g factor hm wa wb ha' hb'
    exact ⟨w, (hs.denotes_iff hkey hmeans (hnode _ (by simp)) (hvalid _ (by simp))).mpr hw, happ⟩

theorem CacheSound.store {ops : EvddApplyOps K} (hc : CacheSound T ops s) (hapart : ops.Apart)
    {i op : ℕ} (hd : Delivers T (ops op) s a b (e, s)) :
    CacheSound T ops (s.store i a b (evddOpc op) e) := by
  intro j hj d op' hop' t g factor hm wa wb ha hb
  rw [EvddState.denotes_store] at ha hb
  simp only [EvddState.denotes_store]
  rcases EvddCache.store_valid hj with ⟨-, ht⟩ | ⟨hv, ht⟩
  · have hdt : d = _ := ht
    rw [hdt] at hop' ha hb ⊢
    rw [← hapart op op' hop'] at hm
    exact hd t g factor hm wa wb ha hb
  · have hdt : d = _ := ht
    rw [hdt] at hop' ha hb ⊢
    exact hc j hv op' hop' t g factor hm wa wb ha hb

omit [Field K] in
theorem EdgeSpec.cacheStable {r : EVDD × EvddState K} (h : EdgeSpec T s e r) :
    CacheStable s r.2 := by
  rw [h.state]
  exact .of_nodes rfl rfl

/-- The result of two terminals. -/
theorem leafResult_delivers {op : ℕ} {ops : EvddApplyOps K} (hop : LawfulOp T (ops op))
    (hs : Consistent T s) (ha : a.node = evddTrueNode) (hb : b.node = evddTrueNode)
    {v : ValueId × ValueTable K}
    (hv : v = ops op s.values (evddConstValue T s a) (evddConstValue T s b)) :
    Delivers T (ops op) s a b (leafResult T v, { s with values := v.2 }) := by
  intro t g factor hm wa wb hwa hwb
  have hconst : ∀ {e w}, s.Denotes t e w → e.node = evddTrueNode →
      s.values.weight t (evddConstValue T s e) = some w.1 := by
    intro e w hw he
    have hc := (hw.const he).1
    unfold evddConstValue
    split
    · rename_i hz
      rw [(isZero_iff hm.field hs.values hc).mp hz]
      exact weight_zero _ t
    · exact hc
  have hval := hm.exact _ hs.values _ _ _ _ (hconst hwa ha) (hconst hwb hb)
  have hinv := (hop _ hs.values (evddConstValue T s a) (evddConstValue T s b)).ext.inv
  rw [← hv] at hval hinv
  refine ⟨(g wa.1 wb.1, .leaf), ⟨⟨?_, ?_⟩, trivial⟩, trivial, ?_, fun x => ?_, fun _ => .const _⟩
  · show v.2.weight t (leafResult T v).w = some (g wa.1 wb.1)
    unfold leafResult
    split
    · rename_i hz
      rw [(isZero_iff hm.field hinv hval).mp hz]
      exact weight_zero _ t
    · exact hval
  · have hnode : (leafResult T v).node = evddTrueNode := by
      unfold leafResult
      split <;> rfl
    rw [hnode]
    exact .leaf
  · rw [(hwa.const ha).2, (hwb.const hb).2]
    exact (min_self evddMaxlevel).le
  · unfold WEdge.val
    rw [(hwa.const ha).2, (hwb.const hb).2]
    simp [WTree.eval]

/-- `evdd_apply_rec` computes the operation pointwise and keeps the cache sound, unless it runs
out of nodes. By induction on the rounds. -/
theorem evddApplyRec_sound {ops : EvddApplyOps K} {op : ℕ} (hT : LawfulNormalize T)
    (hop : LawfulOp T (ops op)) (hapart : ops.Apart) (fuel : ℕ) {a b : EVDD} {s : EvddState K}
    {r : EVDD × EvddState K}
    (hs : Consistent T s) (hc : CacheSound T ops s) (ha : s.Handle a) (hb : s.Handle b)
    (hr : evddApplyRec T E ops op fuel a b s = some r) (hroom : r.2.nodenums = s.nodenums) :
    CacheSound T ops r.2 ∧ Delivers T (ops op) s a b r := by
  induction fuel generalizing a b s r with
  | zero => simp [evddApplyRec] at hr
  | succ fuel ih =>
    cases evddApplyRec_cases hr with
    | hit hit result =>
      subst result
      obtain ⟨hv, h1, h2, h3, h4, h5⟩ := cacheHit_valid hit
      have hd := hc _ hv op h5
      rw [h1, h2, h3, h4] at hd
      exact ⟨hc, hd⟩
    | leaf hna hnb v value result =>
      have hd := leafResult_delivers hop hs hna hnb value
      have hext := (hop s.values hs.values (evddConstValue T s a) (evddConstValue T s b)).ext
      rw [← value] at hext
      have hst : CacheStable s { s with values := v.2 } := .of_nodes rfl rfl
      subst result
      refine ⟨(hc.stable hs hst hext.ext.means).store hapart fun t g factor hm wa wb hwa hwb => ?_,
        fun t g factor hm wa wb hwa hwb => ?_⟩
      · rw [hs.denotes_setValues hext.ext ha.isNode ha.2] at hwa
        rw [hs.denotes_setValues hext.ext hb.isNode hb.2] at hwb
        exact hd t g factor hm wa wb hwa hwb
      · obtain ⟨w, hw, happ⟩ := hd t g factor hm wa wb hwa hwb
        exact ⟨w, EvddState.denotes_store.mpr hw, happ⟩
    | split a₀ b₀ r₀ a₁ b₁ r₁ m inner lowA lowB low highA highB high make result =>
      -- the states one after the other
      have hlevel : min (evddSplitLevel s a) (evddSplitLevel s b) ≤ evddMaxlevel :=
        Nat.le_of_lt_succ ((Nat.min_le_left _ _).trans_lt (splitLevel_lt hs.table a))
      have ha₀ := evddEdgeLow_spec hs.table lowA
      have e₁ := ha₀.evolves hs.table
      obtain ⟨s₁, n₁⟩ := ha₀.consistent hs ha
      have hb₀ := evddEdgeLow_spec e₁.inv lowB
      have e₂ := hb₀.evolves e₁.inv
      obtain ⟨s₂, n₂⟩ := hb₀.consistent s₁ (e₁.handle hs hb)
      have hr₀ := evddApplyRec_call hT hop fuel e₂.inv low
      have e₃ := hr₀.evolves
      obtain ⟨s₃, n₃, v₃⟩ := hr₀.consistent s₂ (pair_forall (e₂.handle s₁ n₁) n₂)
      have p₃ : Evolves True T r₀.2 (r₀.2.pushref r₀.1.node) := .pushref hr₀.inv _
      have s₃' := s₃.pushref n₃
      have n₃' : (r₀.2.pushref r₀.1.node).Handle r₀.1 := ⟨held_pushref n₃, v₃⟩
      have e₀₃ := (e₁.trans e₂).trans (e₃.trans p₃)
      have ha₁ := evddEdgeHigh_spec p₃.inv highA
      have e₄ := ha₁.evolves p₃.inv
      obtain ⟨s₄, n₄⟩ := ha₁.consistent s₃' (e₀₃.handle hs ha)
      have hb₁ := evddEdgeHigh_spec e₄.inv highB
      have e₅ := hb₁.evolves e₄.inv
      obtain ⟨s₅, n₅⟩ := hb₁.consistent s₄ ((e₀₃.trans e₄).handle hs hb)
      have hr₁ := evddApplyRec_call hT hop fuel e₅.inv high
      have e₆ := hr₁.evolves
      obtain ⟨s₆, n₆, v₆⟩ := hr₁.consistent s₅ (pair_forall (e₅.handle s₄ n₄) n₅)
      have p₆ : Evolves True T r₁.2 (r₁.2.pushref r₁.1.node) := .pushref hr₁.inv _
      have s₆' := s₆.pushref n₆
      have n₆' : (r₁.2.pushref r₁.1.node).Handle r₁.1 := ⟨held_pushref n₆, v₆⟩
      have e₄₆ := (e₄.trans e₅).trans (e₆.trans p₆)
      have hn₃ := e₄₆.handle s₃' n₃'
      have hm := evddMakenode_call (E := E) hT p₆.inv r₀.1 r₁.1 fun _ => Nat.lt_succ_of_le hlevel
      have hmspec := evddMakenode_spec T E p₆.inv r₀.1 r₁.1
        (fun _ => Nat.lt_succ_of_le hlevel) rfl rfl
      have hmakes := fun {t g factor} (hM : Meaning T t (ops op) g factor) {l h}
          (hl : EvddState.Denotes _ t r₀.1 l) (hh : EvddState.Denotes _ t r₁.1 h) =>
        evddMakenode_makes (E := E) hT hM.field hM.norm s₆' hlevel hn₃.isNode n₆'.isNode hl hh
      rw [← make] at hm hmspec hmakes
      have e₇ := hm.evolves
      have hall := (e₀₃.trans e₄₆).trans e₇
      -- no step ran out of nodes
      have hroom' : m.2.nodenums = s.nodenums := by
        rw [result] at hroom
        exact hroom
      have k₂ := (e₁.trans e₂).keeps.nodenums
      have k₃ := e₃.keeps.nodenums
      have k₅ := (p₃.trans (e₄.trans e₅)).keeps.nodenums
      have k₆ := e₆.keeps.nodenums
      have k₇ := (p₆.trans e₇).keeps.nodenums
      have hk : (r₁.2.pushref r₁.1.node).nodenums = r₁.2.nodenums := rfl
      have hpush : ∀ {s : EvddState K} {n}, CacheStable s (s.pushref n) := .of_nodes rfl rfl
      have c₂ := (hc.stable hs ha₀.cacheStable (e₁.values hs.values).ext.means).stable s₁
        hb₀.cacheStable (e₂.values s₁.values).ext.means
      obtain ⟨c₃, d₀⟩ := ih s₂ c₂ (e₂.handle s₁ n₁) n₂ low (by omega)
      have c₅ := ((c₃.stable s₃ hpush fun _ _ _ => rfl).stable s₃' ha₁.cacheStable
        (e₄.values s₃'.values).ext.means).stable s₄ hb₁.cacheStable (e₅.values s₄.values).ext.means
      obtain ⟨c₆, d₁⟩ := ih s₅ c₅ (e₅.handle s₄ n₄) n₅ high (by omega)
      have c₇ := (c₆.stable s₆ hpush fun _ _ _ => rfl).stable s₆' hmspec.frame.cache
        (e₇.values s₆'.values).ext.means
      obtain ⟨s₇, -, -⟩ := hm.consistent s₆' (pair_forall hn₃ n₆')
      have hd : Delivers T (ops op) s a b m := by
        intro t g factor hM wa wb hwa hwb
        have hla := hwa.splitLevel
        have hlb := hwb.splitLevel
        rw [hla, hlb] at lowA lowB highA highB hmakes
        have hlt : min (wa.2.topLevel evddMaxlevel) (wb.2.topLevel evddMaxlevel) < evddMaxlevel := by
          rcases not_and_or.mp inner with h0 | h0
          · exact (Nat.min_le_left _ _).trans_lt (hwa.level_lt h0)
          · exact (Nat.min_le_right _ _).trans_lt (hwb.level_lt h0)
        have hwb₁ := (e₁.denotes_iff hs hb).mpr hwb
        have hwa₃ := (e₀₃.denotes_iff hs ha).mpr hwa
        have hwb₄ := ((e₀₃.trans e₄).denotes_iff hs hb).mpr hwb
        have hw₀ := evddEdgeLow_denotes hM.field hs hwa hlt (by simp) lowA
        have hw₀' := evddEdgeLow_denotes hM.field s₁ hwb₁ hlt (by simp) lowB
        obtain ⟨u₀, hu₀, happ₀⟩ := d₀ t g factor hM _ _ ((e₂.denotes_iff s₁ n₁).mpr hw₀) hw₀'
        have hw₁ := evddEdgeHigh_denotes hM.field s₃' hwa₃ hlt (by simp) highA
        have hw₁' := evddEdgeHigh_denotes hM.field s₄ hwb₄ hlt (by simp) highB
        obtain ⟨u₁, hu₁, happ₁⟩ := d₁ t g factor hM _ _ ((e₅.denotes_iff s₄ n₄).mpr hw₁) hw₁'
        have hu₀' := (e₄₆.denotes_iff s₃' n₃').mpr (EvddState.denotes_pushref.mpr hu₀)
        obtain ⟨w, hedge, hw⟩ := hmakes hM hu₀' (EvddState.denotes_pushref.mpr hu₁) (by omega)
        have happ := happ₀.make hM.norm.toCommonFactor hwa.2 hwb.2 rfl hlt happ₁ hw
        exact ⟨w, ⟨hedge, happ.ordered⟩, happ⟩
      have hpop : ∀ {t e w}, (m.2.popref 2).Denotes t e w ↔ m.2.Denotes t e w :=
        EvddState.denotes_restack
      have c₈ : CacheSound T ops (m.2.popref 2) :=
        c₇.stable s₇ (.of_nodes rfl rfl) fun _ _ _ => rfl
      subst result
      refine ⟨c₈.store hapart fun t g factor hM wa wb hwa hwb => ?_,
        fun t g factor hM wa wb hwa hwb => ?_⟩
      · rw [hpop, hall.denotes_iff hs ha] at hwa
        rw [hpop, hall.denotes_iff hs hb] at hwb
        obtain ⟨w, hw, happ⟩ := hd t g factor hM wa wb hwa hwb
        exact ⟨w, hpop.mpr hw, happ⟩
      · obtain ⟨w, hw, happ⟩ := hd t g factor hM wa wb hwa hwb
        exact ⟨w, EvddState.denotes_store.mpr (hpop.mpr hw), happ⟩

/-! ## Rounds -/

section Total

variable {P : Type*} [DecidableEq P] {T : ValueTypes P} {E : Policy P} {s s' : EvddState P}
  {a b e : EVDD}

/-- The longest path below `n` has `k` nodes. -/
def EvddState.Deep (s : EvddState P) (n k : ℕ) : Prop :=
  ∃ τ : WTree Unit, s.Unfolds (fun _ => some ()) n τ ∧ τ.depth = k

omit [DecidableEq P] in
theorem Untouched.deep {D : ℕ → Prop} (hD : Untouched s s' D) {n k : ℕ} (hn : D n)
    (h : s.Deep n k) : s'.Deep n k := by
  obtain ⟨τ, hτ, hk⟩ := h
  exact ⟨τ, hD.unfolds (fun _ _ _ _ _ => rfl) hn hτ, hk⟩

theorem Evolves.deep {q : Prop} (he : Evolves q T s s') (hs : Consistent T s)
    (hn : e.node = evddTrueNode ∨ s.Held e.node) {k : ℕ} (h : s.Deep e.node k) :
    s'.Deep e.node k :=
  (he.keeps.untouched hs.table hs.graph).deep hn h

omit [DecidableEq P] in
/-- The children of a node are less deep. -/
theorem EvddState.Deep.children {n k : ℕ} (h : s.Deep n k) (hn : n ≠ evddTrueNode) :
    ∃ low kl kh, (s.key n).low = some low ∧ s.Deep low kl ∧ s.Deep (s.key n).high kh ∧
      kl < k ∧ kh < k := by
  obtain ⟨τ, hτ, hd⟩ := h
  cases hτ with
  | leaf => exact absurd rfl hn
  | @node _ low high level wLow wHigh l r tl th inner key _ _ below above =>
    have hd' : max tl.depth th.depth + 1 = k := hd
    refine ⟨low, tl.depth, th.depth, congrArg EvddKey.low key, ⟨tl, below, rfl⟩, ?_, by omega,
      by omega⟩
    rw [congrArg EvddKey.high key]
    exact ⟨th, above, rfl⟩

/-- A cofactor is taken without failing, and is less deep if a node was split. -/
structure EdgeTotal (s : EvddState P) (e : EVDD) (split : Bool) (k : ℕ)
    (r : EVDD × EvddState P) (k' : ℕ) : Prop where
  deep : r.2.Deep r.1.node k'
  le : k' ≤ k
  lt : split = true → e.node ≠ evddTrueNode → k' < k

theorem evddEdge_deep {child k : ℕ} (h : s.Deep child k) (id : ValueId) :
    (evddEdge T s e child id).2.Deep (evddEdge T s e child id).1.node k := by
  have hD : Untouched s (evddEdge T s e child id).2 fun _ => True :=
    ⟨fun _ _ _ => rfl, fun _ _ _ _ _ => trivial⟩
  exact hD.deep trivial h

theorem evddEdgeLow_total (hs : Consistent T s) {k : ℕ} (he : s.Deep e.node k) (split : Bool) :
    ∃ r k', evddEdgeLow T s e split = some r ∧ EdgeTotal s e split k r k' := by
  rw [evddEdgeLow]
  cases split with
  | false => exact ⟨_, k, if_neg (by decide), he, le_rfl, fun h => absurd h (by decide)⟩
  | true =>
    rw [if_pos rfl]
    by_cases hn : e.node = evddTrueNode
    · have hlow : (s.evddnodes e.node).low = some 0 := by
        rw [hn]
        exact congrArg EvddKey.low hs.table.terminal
      rw [hlow]
      rw [hn] at he
      exact ⟨_, k, rfl, evddEdge_deep he _, le_rfl, fun _ h => absurd hn h⟩
    · obtain ⟨low, kl, kh, hlow, hdl, -, hlt, -⟩ := he.children hn
      rw [show (s.evddnodes e.node).low = some low from hlow]
      exact ⟨_, kl, rfl, evddEdge_deep hdl _, hlt.le, fun _ _ => hlt⟩

theorem evddEdgeHigh_total (hs : Consistent T s) {k : ℕ} (he : s.Deep e.node k) (split : Bool) :
    ∃ r k', evddEdgeHigh T s e split = some r ∧ EdgeTotal s e split k r k' := by
  rw [evddEdgeHigh]
  cases split with
  | false => exact ⟨_, k, if_neg (by decide), he, le_rfl, fun h => absurd h (by decide)⟩
  | true =>
    rw [if_pos rfl]
    by_cases hn : e.node = evddTrueNode
    · have hlow : (s.evddnodes e.node).low = some 0 := by
        rw [hn]
        exact congrArg EvddKey.low hs.table.terminal
      have hhigh : (s.evddnodes e.node).high = 0 := by
        rw [hn]
        exact congrArg EvddKey.high hs.table.terminal
      rw [EvddState.isFree, hlow, hhigh]
      rw [hn] at he
      exact ⟨_, k, rfl, evddEdge_deep he _, le_rfl, fun _ h => absurd hn h⟩
    · obtain ⟨low, kl, kh, hlow, -, hdh, -, hlt⟩ := he.children hn
      rw [EvddState.isFree, show (s.evddnodes e.node).low = some low from hlow]
      exact ⟨_, kh, rfl, evddEdge_deep hdh _, hlt.le, fun _ _ => hlt⟩

/-- `evdd_apply_rec` returns if it has more rounds than its operands are deep. -/
theorem evddApplyRec_total {ops : EvddApplyOps P} {op : ℕ} (hT : LawfulNormalize T)
    (hop : LawfulOp T (ops op)) (fuel : ℕ) {a b : EVDD} {s : EvddState P} (hs : Consistent T s)
    (ha : s.Handle a) (hb : s.Handle b) {ka kb : ℕ} (hka : s.Deep a.node ka)
    (hkb : s.Deep b.node kb) (hfuel : ka + kb < fuel) :
    ∃ r, evddApplyRec T E ops op fuel a b s = some r := by
  induction fuel generalizing a b s ka kb with
  | zero => omega
  | succ fuel ih =>
    rw [evddApplyRec]
    dsimp only
    split
    · exact ⟨_, rfl⟩
    split
    · exact ⟨_, rfl⟩
    rename_i hinner
    -- the operand that is not below the other one is split
    have hsplit : (evddSplitLevel s a ≤ evddSplitLevel s b ∧ a.node ≠ evddTrueNode) ∨
        (evddSplitLevel s b ≤ evddSplitLevel s a ∧ b.node ≠ evddTrueNode) := by
      have hla := splitLevel_lt hs.table a
      have hlb := splitLevel_lt hs.table b
      have hconst : ∀ e : EVDD, e.node = evddTrueNode → evddSplitLevel s e = 2 ^ 21 - 1 :=
        fun e he => if_pos he
      by_cases hna : a.node = evddTrueNode
      · have hnb : b.node ≠ evddTrueNode := fun h => hinner ⟨hna, h⟩
        have := hconst a hna
        exact Or.inr ⟨by omega, hnb⟩
      · by_cases hnb : b.node = evddTrueNode
        · have := hconst b hnb
          exact Or.inl ⟨by omega, hna⟩
        · rcases Nat.le_total (evddSplitLevel s a) (evddSplitLevel s b) with h | h
          · exact Or.inl ⟨h, hna⟩
          · exact Or.inr ⟨h, hnb⟩
    obtain ⟨a₀, ka₀, lowA, ta₀⟩ :=
      evddEdgeLow_total hs hka (decide (evddSplitLevel s a ≤ evddSplitLevel s b))
    have ha₀ := evddEdgeLow_spec hs.table lowA
    have e₁ := ha₀.evolves hs.table
    obtain ⟨s₁, n₁⟩ := ha₀.consistent hs ha
    obtain ⟨b₀, kb₀, lowB, tb₀⟩ := evddEdgeLow_total s₁ (e₁.deep hs hb.1 hkb)
      (decide (evddSplitLevel s b ≤ evddSplitLevel s a))
    have hb₀ := evddEdgeLow_spec e₁.inv lowB
    have e₂ := hb₀.evolves e₁.inv
    obtain ⟨s₂, n₂⟩ := hb₀.consistent s₁ (e₁.handle hs hb)
    have hlt : ka₀ + kb₀ < fuel := by
      have := ta₀.le
      have := tb₀.le
      rcases hsplit with ⟨h, h0⟩ | ⟨h, h0⟩
      · have := ta₀.lt (decide_eq_true h) h0
        omega
      · have := tb₀.lt (decide_eq_true h) h0
        omega
    obtain ⟨r₀, low⟩ := ih s₂ (e₂.handle s₁ n₁) n₂ (e₂.deep s₁ n₁.1 ta₀.deep) tb₀.deep hlt
    have hr₀ := evddApplyRec_call hT hop fuel e₂.inv low
    obtain ⟨s₃, n₃, -⟩ := hr₀.consistent s₂ (pair_forall (e₂.handle s₁ n₁) n₂)
    have p₃ : Evolves True T r₀.2 (r₀.2.pushref r₀.1.node) := .pushref hr₀.inv _
    have s₃' := s₃.pushref n₃
    have e₀₃ := (e₁.trans e₂).trans (hr₀.evolves.trans p₃)
    obtain ⟨a₁, ka₁, highA, ta₁⟩ := evddEdgeHigh_total s₃' (e₀₃.deep hs ha.1 hka)
      (decide (evddSplitLevel s a ≤ evddSplitLevel s b))
    have ha₁ := evddEdgeHigh_spec p₃.inv highA
    have e₄ := ha₁.evolves p₃.inv
    obtain ⟨s₄, n₄⟩ := ha₁.consistent s₃' (e₀₃.handle hs ha)
    obtain ⟨b₁, kb₁, highB, tb₁⟩ := evddEdgeHigh_total s₄ ((e₀₃.trans e₄).deep hs hb.1 hkb)
      (decide (evddSplitLevel s b ≤ evddSplitLevel s a))
    have hb₁ := evddEdgeHigh_spec e₄.inv highB
    have e₅ := hb₁.evolves e₄.inv
    obtain ⟨s₅, n₅⟩ := hb₁.consistent s₄ ((e₀₃.trans e₄).handle hs hb)
    have hlt' : ka₁ + kb₁ < fuel := by
      have := ta₁.le
      have := tb₁.le
      rcases hsplit with ⟨h, h0⟩ | ⟨h, h0⟩
      · have := ta₁.lt (decide_eq_true h) h0
        omega
      · have := tb₁.lt (decide_eq_true h) h0
        omega
    obtain ⟨r₁, high⟩ := ih s₅ (e₅.handle s₄ n₄) n₅ (e₅.deep s₄ n₄.1 ta₁.deep) tb₁.deep hlt'
    simp only [lowA, lowB, low, highA, highB, high, Option.bind_eq_bind, Option.bind_some]
    exact ⟨_, rfl⟩

end Total

end MoToBuddy.Evdd
