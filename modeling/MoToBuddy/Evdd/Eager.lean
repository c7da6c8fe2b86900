import MoToBuddy.Evdd.Canonical

/-!
# Canonicity (`evdd_kernel.c`, `evdd_op.c`)

Edges that are built eagerly are the same edge as soon as they have the same function, if the factor
of the strategy scales with the weights. `evdd_normalize` makes such edges of raw diagrams, except
that it keeps what hangs below an edge of weight zero (`evddNormalize_canonical_iff`).
-/

namespace MoToBuddy.Evdd

open Weighted Chained Marking

variable {K : Type*} [Field K] [DecidableEq K] {T : ValueTypes K} {E : Policy K}
  {ops : EvddApplyOps K} {t op : ℕ} {factor g : K → K → K} {s s' : EvddState K} {a b : EVDD}
  {size maxsize cachesize : ℕ} {V : ValueTable K}

/-- The strategies whose factor scales. -/
theorem exists_scaling {R : Type*} [Semiring R] [LinearOrder R] [IsStrictOrderedRing R]
    (magnitude : K → R) (hX : ExactField T t)
    (hstrategy : (T.fns t).normalizefun = some .firstNonzero ∨
      (T.fns t).normalizefun = some .maxMagnitude ∧ ComparesMagnitude T t magnitude) :
    ∃ factor, Normalizing T t factor ∧ Scales factor := by
  rcases hstrategy with h | ⟨h, hm⟩
  · exact ⟨_, normalizing_firstNonzero hX h, scales_firstNonzero⟩
  · exact ⟨_, normalizing_maxMagnitude hX h, scales_maxMagnitude hm⟩

/-! ## Sessions that build edges -/

/-- An id that keeps the payload and the type of its row. -/
def SameRow (s s' : EvddState K) (id : ValueId) : Prop :=
  id = evddValueZero ∨ (s'.values.evddValues id).payload = (s.values.evddValues id).payload ∧
    (s'.values.evddValues id).type = (s.values.evddValues id).type

/-- Nothing below an edge was freed: nodes keep their keys, and weights their rows. -/
structure Intact (s s' : EvddState K) (e : EVDD) : Prop where
  key : ∀ n, Reach s.live s.succ e.node n → s'.key n = s.key n
  weight : SameRow s s' e.w
  below : ∀ n, Reach s.live s.succ e.node n → SameRow s s' (s.key n).wLow ∧
    SameRow s s' (s.key n).wHigh

/-- A call that builds an edge from the edges `l`: a node over deeper edges of `l`, or the result of
an operation of the field. -/
def Builds (T : ValueTypes K) (ops : EvddApplyOps K) (t : ℕ) (s : EvddState K) (l : List EVDD) :
    EvddCall K → Prop
  | .makenode level low high => low ∈ l ∧ high ∈ l ∧ level < evddSplitLevel s low ∧
    level < evddSplitLevel s high
  | .apply a b op => op ≠ 0 ∧ (∃ g factor, Meaning T t (ops op) g factor) ∧
    (∃ w, s.Denotes t a w) ∧ ∃ w, s.Denotes t b w
  | _ => False

/-- A session with the edges that it has built so far and that are still there. -/
inductive Eager (T : ValueTypes K) (ops : EvddApplyOps K) (t : ℕ) (init : EvddState K) :
    EvddState K → List EVDD → Prop
  | init : Eager T ops t init init []
  /-- `evdd_const` and `evdd_false`. -/
  | const {s : EvddState K} {l : List EVDD} (h : Eager T ops t init s l) {id : ValueId}
      {c : K} (hid : s.values.weight t id = some c) : Eager T ops t init s (evddConst id :: l)
  /-- Any call; its result is added if it is one of the edges built here. -/
  | call {s s' : EvddState K} {l l' : List EVDD} (h : Eager T ops t init s l)
      {E : Policy K} {c : EvddCall K} {r : EvddResult} (hok : Careful T s c)
      (hr : evddCall T E ops s c = some (r, s'))
      (hl : ∀ e ∈ l', e ∈ l ∧ Intact s s' e ∨ r = .edge e ∧ Builds T ops t s l c) :
      Eager T ops t init s' l'

/-- Any session is one that has built nothing. -/
theorem Eager.of_run {init : EvddState K} (h : EvddRun T ops (Careful T) init s) :
    Eager T ops t init s [] := by
  induction h with
  | refl => exact .init
  | tail _ hstep ih =>
    obtain ⟨E, c, r, hok, hr⟩ := hstep
    exact .call ih hok hr (by simp)

theorem Eager.run {init : EvddState K} {l : List EVDD} (h : Eager T ops t init s l) :
    EvddRun T ops (Careful T) init s := by
  induction h with
  | init => exact .refl
  | const _ _ ih => exact ih
  | call _ hok hr _ ih => exact ih.tail ⟨_, _, _, hok, hr⟩

omit [DecidableEq K] in
theorem SameRow.weight {id : ValueId} (h : SameRow s s' id) :
    s'.values.weight t id = s.values.weight t id := by
  unfold ValueTable.weight
  rcases h with rfl | ⟨hp, ht⟩
  · rfl
  · rw [hp, ht]

omit [DecidableEq K] in
theorem Intact.denotes {e : EVDD} (h : Intact s s' e) {w : WEdge K} (hw : s.Denotes t e w) :
    s'.Denotes t e w := by
  obtain ⟨⟨hc, hτ⟩, hord⟩ := hw
  refine ⟨⟨h.weight.weight.trans hc, hτ.congr h.key fun n hn id hid w hw => ?_⟩, hord⟩
  obtain ⟨hl, hr⟩ := h.below n hn
  rcases hid with rfl | rfl
  · exact hl.weight.trans hw
  · exact hr.weight.trans hw

omit [Field K] in
/-- Protected edges stay. -/
theorem EvddState.Protects.intact (hT : LawfulNormalize T) (hops : ∀ op, LawfulOp T (ops op))
    (hs : Consistent T s) {c : EvddCall K} (hlevel : c.level ≤ evddMaxlevel)
    {r : EvddResult × EvddState K} (hr : evddCall T E ops s c = some r) {e : EVDD}
    (he : s.Protects e) (hv : s.values.Valid e.w) : Intact s r.2 e := by
  have hspec := evddCall_spec (q := True) hT hops hs.table hs.values
    (fun _ => Nat.lt_succ_of_le hlevel) hr
  have hrow : ∀ id, s.values.Valid id → id = evddValueZero ∨ s.Survives id →
      SameRow s r.2 id := by
    intro id hid hsurv
    by_cases h0 : id = evddValueZero
    · exact Or.inl h0
    · have hlive := hid.resolve_left h0
      exact Or.inr (hspec.stable id hlive (hspec.survives id hlive (hsurv.resolve_left h0)))
  have hheld : ∀ n, Reach s.live s.succ e.node n → s.Held n := by
    intro n hn
    rcases he.1 with h0 | ⟨root, hroot, hreach⟩
    · exact absurd (EvddState.live_iff.mp hn.live_left).1 (by simp [h0])
    · exact ⟨root, hroot, hreach.trans hn⟩
  refine ⟨fun n hn => hspec.key n (hheld n hn), hrow _ hv he.2, fun n hn => ?_⟩
  obtain ⟨hl, hh⟩ := hs.weight.node n (hheld n hn).live
  exact ⟨hrow _ hl (Or.inr (Or.inr ⟨n, hheld n hn, Or.inl rfl⟩)),
    hrow _ hh (Or.inr (Or.inr ⟨n, hheld n hn, Or.inr rfl⟩))⟩

omit [Field K] in
/-- A call that frees no weight spares protected edges. -/
theorem Evolves.intact (h : Evolves True T s s') (hs : Consistent T s) {e : EVDD}
    (he : s.Handle e) : Intact s s' e := by
  have hext := (h.values hs.values).ext
  have hrow : ∀ id, s.values.Valid id → SameRow s s' id := fun id hid =>
    hid.imp_right fun hlive => by rw [hext id hlive]; exact ⟨rfl, rfl⟩
  have hheld : ∀ n, Reach s.live s.succ e.node n → s.Held n := by
    intro n hn
    rcases he.1 with h0 | ⟨root, hroot, hreach⟩
    · exact absurd (EvddState.live_iff.mp hn.live_left).1 (by simp [h0])
    · exact ⟨root, hroot, hreach.trans hn⟩
  refine ⟨fun n hn => h.keeps.key n (hheld n hn), hrow _ he.2, fun n hn => ?_⟩
  obtain ⟨hl, hh⟩ := hs.weight.node n (hheld n hn).live
  exact ⟨hrow _ hl, hrow _ hh⟩

omit [Field K] [DecidableEq K] in
theorem edge_eq {x : EVDD × EvddState K} {e : EVDD}
    (h : some (Prod.map EvddResult.edge id x) = some (EvddResult.edge e, s')) : x = (e, s') := by
  obtain ⟨h1, h2⟩ := Prod.mk.inj (Option.some.inj h)
  exact Prod.ext (EvddResult.edge.inj h1) h2

/-- The result of a building call is in normal form. -/
theorem Builds.red (hT : LawfulNormalize T) (hops : ∀ op, LawfulOp T (ops op))
    (hapart : ops.Apart) (hX : ExactField T t) (hN : Normalizing T t factor) (hscales : Scales factor)
    (hs : Consistent T s) (hc : CacheSound T ops s) {l : List EVDD}
    (hl : ∀ e ∈ l, ∃ w, s.Denotes t e w ∧ RedEdge evddMaxlevel factor w) {c : EvddCall K}
    (hok : Careful T s c) (hb : Builds T ops t s l c) {e : EVDD}
    (hr : evddCall T E ops s c = some (.edge e, s')) (hroom : s'.nodenums = s.nodenums) :
    ∃ w, s'.Denotes t e w ∧ RedEdge evddMaxlevel factor w := by
  cases c with
  | makenode level low high =>
    obtain ⟨hlow, hhigh, hll, hlh⟩ := hb
    obtain ⟨u, hu, hru⟩ := hl low hlow
    obtain ⟨v, hv, hrv⟩ := hl high hhigh
    have hM : level ≤ evddMaxlevel := hok.2.1
    have hmakes := evddMakenode_makes (E := E) hT hX hN hs hM hok.2.2.1 hok.2.2.2 hu hv
    rw [show evddMakenode T E s level low high = (e, s') from edge_eq hr] at hmakes
    obtain ⟨w, hw, hmake⟩ := hmakes hroom
    rw [hu.splitLevel] at hll
    rw [hv.splitLevel] at hlh
    have hred := hmake.redEdge hN.toCommonFactor hscales trivial hru hrv hll hlh
    exact ⟨w, ⟨hw, hred.ordered⟩, hred⟩
  | apply a b op =>
    obtain ⟨hop, ⟨g, _, hm⟩, ⟨wa, ha⟩, wb, hb⟩ := hb
    obtain ⟨x, hx, hxr⟩ := Option.map_eq_some_iff.mp hr
    obtain rfl := edge_eq (congrArg some hxr)
    have hva := valid_of_weight ha.1.1
    have hvb := valid_of_weight hb.1.1
    obtain ⟨-, hd⟩ := evddApply_sound hT (hops op) hapart hs hc hva hvb hx hroom
    obtain ⟨w, hw, happ⟩ := hd hop ha.1.2.isNode hb.1.2.isNode t g factor ⟨hX, hN, hm.exact⟩ wa wb
      ha hb
    exact ⟨w, hw, happ.red hscales⟩
  | _ => exact absurd hb id

/-- Every edge of an eager session is in normal form. -/
theorem Eager.red (hT : LawfulNormalize T) (hops : ∀ op, LawfulOp T (ops op))
    (hapart : ops.Apart) (hX : ExactField T t) (hN : Normalizing T t factor) (hscales : Scales factor)
    {init : EvddState K} (hinit : Consistent T init) (hcinit : CacheSound T ops init)
    {l : List EVDD} (h : Eager T ops t init s l) (hroom : s.nodenums = init.nodenums) :
    ∀ e ∈ l, ∃ w, s.Denotes t e w ∧ RedEdge evddMaxlevel factor w := by
  induction h with
  | init => simp
  | const h hid ih =>
    intro e he
    rcases List.mem_cons.mp he with rfl | he
    · exact ⟨(_, .leaf), ⟨⟨hid, .leaf⟩, trivial⟩, .const _⟩
    · exact ih hroom e he
  | @call s s' l l' h E c r hok hr hl ih =>
    obtain ⟨⟨ht, hV⟩, hle⟩ := evddRun_nodenums hT hops hinit.table hinit.values h.run
    have hle' := evddCall_nodenums hT hops ht hV hok.2.1 hr
    dsimp only at hle'
    obtain ⟨hs, hc⟩ := evddRun_sound hT hops hapart hinit hcinit h.run (by omega)
    intro e he
    rcases hl e he with ⟨hel, hintact⟩ | ⟨rfl, hb⟩
    · obtain ⟨w, hw, hred⟩ := ih (by omega) e hel
      exact ⟨w, hintact.denotes hw, hred⟩
    · exact hb.red hT hops hapart hX hN hscales hs hc (ih (by omega)) hok hr (by omega)

/-- Edges in normal form with the same function are the same edge. -/
theorem Consistent.red_inj (hX : ExactField T t) (hf : CommonFactor factor) (hscales : Scales factor)
    (hs : Consistent T s) {w w' : WEdge K} (ha : s.Denotes t a w) (hb : s.Denotes t b w')
    (hw : RedEdge evddMaxlevel factor w) (hw' : RedEdge evddMaxlevel factor w')
    (hval : ∀ x, w.val x = w'.val x) : a = b := by
  obtain rfl := hw.ext hf hscales hw' hval
  exact ha.inj hX hs hb

/-- Edges that a session has built from constants with `evdd_makenode` and `evdd_apply` are equal as
soon as they have the same function. -/
theorem evddEager_canonical {R : Type*} [Semiring R] [LinearOrder R] [IsStrictOrderedRing R]
    (magnitude : K → R) (hT : LawfulNormalize T) (hops : ∀ op, LawfulOp T (ops op))
    (hapart : ops.Apart) (hsize : 2 ≤ size) (hcache : 0 < cachesize) (hV : ValueInv T V)
    (hX : ExactField T t)
    (hstrategy : (T.fns t).normalizefun = some .firstNonzero ∨
      (T.fns t).normalizefun = some .maxMagnitude ∧ ComparesMagnitude T t magnitude)
    {l : List EVDD} (h : Eager T ops t (evddInit size maxsize cachesize V) s l)
    (hroom : s.nodenums = 0) : ∀ e ∈ l, ∀ e' ∈ l, ∃ w w', s.Denotes t e w ∧ s.Denotes t e' w' ∧
      ((∀ x, w.val x = w'.val x) ↔ e = e') := by
  obtain ⟨factor, hN, hscales⟩ := exists_scaling magnitude hX hstrategy
  have hinit : Consistent T (evddInit size maxsize cachesize V) :=
    evddInit_consistent hsize hcache hV
  have hred := h.red hT hops hapart hX hN hscales hinit evddInit_cacheSound hroom
  obtain ⟨hs, -⟩ := evddRun_sound hT hops hapart hinit evddInit_cacheSound h.run hroom
  intro e he e' he'
  obtain ⟨w, hw, hrw⟩ := hred e he
  obtain ⟨w', hw', hrw'⟩ := hred e' he'
  refine ⟨w, w', hw, hw', hs.red_inj hX hN.toCommonFactor hscales hw hw' hrw hrw', ?_⟩
  rintro rfl x
  rw [hw.unique hw']

/-! ### Two ways to one edge

The raw node with the weights `2` and `4` is added to itself, and the sum is then built with
`evdd_makenode`. -/

/-- The sum. -/
def ratSum : EVDD × EvddState ℚ :=
  (evddApply (ratTypes .firstNonzero) ratPolicy (ratOps .firstNonzero) ratRaw.2 ratRaw.1 ratRaw.1
    1).getD ratRaw

def ratHeld : EvddState ℚ := (evddAddref ratSum.2 ratSum.1).2

/-- The ids of the weights `4` and `8`. -/
def ratLeaves : EVDD × EVDD := (evddConst 2, evddConst 4)

def ratMade : EVDD × EvddState ℚ :=
  evddMakenode (ratTypes .firstNonzero) ratPolicy ratHeld 5 ratLeaves.1 ratLeaves.2

omit [Field K] in
/-- Counting a reference spares everything. -/
theorem evddAddref_intact (hs : Consistent T s) (root e : EVDD) :
    Intact s (evddAddref s root).2 e := by
  have h := evddAddref_spec (T := T) hs.table root
  have hrow : ∀ id, SameRow s (evddAddref s root).2 id := fun id =>
    Or.inr ((h.values hs.values).2 id)
  exact ⟨fun n _ => h.key n, hrow _, fun n _ => ⟨hrow _, hrow _⟩⟩

theorem ratMade_room : ratSum.2.nodenums = 0 ∧ ratHeld.nodenums = 0 ∧ ratMade.2.nodenums = 0 := by
  decide +kernel

theorem ratHeld_protected : 0 < (ratHeld.evddnodes ratSum.1.node).refcou ∧
    0 < (ratHeld.values.evddValues ratSum.1.w).refcou := by
  decide +kernel

theorem ratHeld_denotes : ratHeld.Denotes 0 ratLeaves.1 (4, .leaf) ∧
    ratHeld.Denotes 0 ratLeaves.2 (8, .leaf) := by
  have h : ratHeld.values.weight 0 ratLeaves.1.w = some 4 ∧
      ratHeld.values.weight 0 ratLeaves.2.w = some 8 := by
    decide +kernel
  exact ⟨⟨⟨h.1, .leaf⟩, trivial⟩, ⟨⟨h.2, .leaf⟩, trivial⟩⟩

/-- The function of the sum. -/
theorem ratSum_spec : evddApply (ratTypes .firstNonzero) ratPolicy (ratOps .firstNonzero) ratRaw.2
      ratRaw.1 ratRaw.1 1 = some ratSum ∧
    ∃ w, ratSum.2.Denotes 0 ratSum.1 w ∧ ∀ x, w.val x = if x 5 then 8 else 4 := by
  obtain ⟨hrun, hd⟩ := ratRaw_spec
  obtain ⟨hs, hc⟩ := evddRun_consistent ratTypes_lawfulNormalize (ratOps_lawful .firstNonzero)
    (ratOps_apart _) (by decide) (by decide) (ValueInv.empty _) hrun ratRaw_room
  have hv := valid_of_weight hd.1.1
  obtain ⟨r, hr⟩ := evddApply_total (E := ratPolicy) ratTypes_lawfulNormalize
    (ratOps_lawful .firstNonzero 1) hs hv hv
  have heq : evddApply (ratTypes .firstNonzero) ratPolicy (ratOps .firstNonzero) ratRaw.2
      ratRaw.1 ratRaw.1 1 = some ratSum := by
    unfold ratSum
    rw [hr]
    rfl
  obtain ⟨-, h⟩ := evddApply_sound ratTypes_lawfulNormalize (ratOps_lawful .firstNonzero 1)
    (ratOps_apart _) hs hc hv hv heq (ratMade_room.1.trans ratRaw_room.symm)
  obtain ⟨w, hw, happ⟩ := h (by decide) hd.1.2.isNode hd.1.2.isNode _ _ _ ratOps_meaning _ _ hd hd
  refine ⟨heq, w, hw, fun x => ?_⟩
  rw [happ.val]
  unfold WEdge.val
  simp only [WTree.eval]
  split <;> norm_num

theorem ratRaw_eager : Eager (ratTypes .firstNonzero) (ratOps .firstNonzero) 0
    (evddInit 7 0 3 .empty) ratRaw.2 [] := by
  obtain ⟨hx, hy⟩ := ratPaired_denotes
  have hintern : ∀ (s : EvddState ℚ) (v : ℚ), Careful (ratTypes .firstNonzero) s
      (.valueIntern (some v) 0) :=
    fun s v => ⟨by simp [ValidWeights, EvddCall.operands], Nat.zero_le _, trivial⟩
  have hone : Eager (ratTypes .firstNonzero) (ratOps .firstNonzero) 0
      (evddInit 7 0 3 .empty) _ [] :=
    .call .init (E := ratPolicy) (hintern _ 2) rfl (by simp)
  have htwo : Eager (ratTypes .firstNonzero) (ratOps .firstNonzero) 0
      (evddInit 7 0 3 .empty) ratPaired [] :=
    .call hone (E := ratPolicy) (hintern _ 4) rfl (by simp)
  exact .call htwo (E := ratPolicy) (c := .makenodeRaw 5 (evddConst ratPair.1.1)
    (evddConst ratPair.1.2)) (r := .edge ratRaw.1)
    ⟨pair_forall (valid_of_weight hx.1.1) (valid_of_weight hy.1.1),
      (by decide : 5 ≤ evddMaxlevel), Or.inl rfl, Or.inl rfl⟩ rfl (by simp)

theorem ratSum_eager : Eager (ratTypes .firstNonzero) (ratOps .firstNonzero) 0
    (evddInit 7 0 3 .empty) ratSum.2 [ratSum.1] := by
  obtain ⟨-, hR⟩ := ratRaw_spec
  have hv := valid_of_weight hR.1.1
  refine .call ratRaw_eager (E := ratPolicy) (c := .apply ratRaw.1 ratRaw.1 1)
    (r := .edge ratSum.1) ⟨pair_forall hv hv, Nat.zero_le _, trivial⟩ ?_ fun e he => ?_
  · rw [evddCall, ratSum_spec.1]
    rfl
  · obtain rfl := List.mem_singleton.mp he
    exact Or.inr ⟨rfl, by decide, ⟨_, _, ratOps_meaning⟩, ⟨_, hR⟩, _, hR⟩

/-- The sum is referenced. -/
theorem ratHeld_eager : Eager (ratTypes .firstNonzero) (ratOps .firstNonzero) 0
      (evddInit 7 0 3 .empty) ratHeld [ratSum.1] ∧ Intact ratSum.2 ratHeld ratSum.1 := by
  obtain ⟨w, hw, -⟩ := ratSum_spec.2
  obtain ⟨hs, -⟩ := evddRun_consistent ratTypes_lawfulNormalize (ratOps_lawful _) (ratOps_apart _)
    (by decide) (by decide) (ValueInv.empty _) ratSum_eager.run ratMade_room.1
  refine ⟨.call ratSum_eager (E := ratPolicy) (c := .addref ratSum.1)
    (r := .edge (evddAddref ratSum.2 ratSum.1).1) ⟨?_, Nat.zero_le _, trivial⟩ rfl
    fun e he => Or.inl ⟨he, evddAddref_intact hs _ e⟩, evddAddref_intact hs _ _⟩
  simpa [ValidWeights, EvddCall.operands] using valid_of_weight hw.1.1

/-- Both edges are there in one session, and have the same function. -/
theorem ratMade_eager : Eager (ratTypes .firstNonzero) (ratOps .firstNonzero) 0
      (evddInit 7 0 3 .empty) ratMade.2 [ratMade.1, ratSum.1] ∧
    ∀ e ∈ [ratMade.1, ratSum.1], ∃ w, ratMade.2.Denotes 0 e w ∧
      ∀ x, w.val x = if x 5 then 8 else 4 := by
  obtain ⟨hx, hy⟩ := ratHeld_denotes
  obtain ⟨heager, hkept⟩ := ratHeld_eager
  obtain ⟨w, hw, hval⟩ := ratSum_spec.2
  obtain ⟨hs, -⟩ := evddRun_consistent ratTypes_lawfulNormalize (ratOps_lawful _) (ratOps_apart _)
    (by decide) (by decide) (ValueInv.empty _) heager.run ratMade_room.2.1
  have hcareful : Careful (ratTypes .firstNonzero) ratHeld (.makenode 5 ratLeaves.1 ratLeaves.2) :=
    ⟨pair_forall (valid_of_weight hx.1.1) (valid_of_weight hy.1.1),
      (by decide : 5 ≤ evddMaxlevel), Or.inl rfl, Or.inl rfl⟩
  have hcall : evddCall (ratTypes .firstNonzero) ratPolicy (ratOps .firstNonzero) ratHeld
      (.makenode 5 ratLeaves.1 ratLeaves.2) = some (.edge ratMade.1, ratMade.2) := rfl
  have hprot := protects_of_refcou hs.table (e := ratSum.1) (Or.inr ratHeld_protected.1)
    (Or.inr ratHeld_protected.2)
  have hsum := hkept.denotes hw
  have hintact := hprot.intact ratTypes_lawfulNormalize (ratOps_lawful _) hs hcareful.2.1 hcall
    (valid_of_weight hsum.1.1)
  refine ⟨.call ((heager.const hx.1.1).const hy.1.1) hcareful hcall fun e he => ?_,
    fun e he => ?_⟩
  · rcases List.mem_cons.mp he with rfl | he
    · exact Or.inr ⟨rfl, List.mem_cons_of_mem _ List.mem_cons_self, List.mem_cons_self,
        (by decide : 5 < evddMaxlevel), (by decide : 5 < evddMaxlevel)⟩
    · obtain rfl := List.mem_singleton.mp he
      exact Or.inl ⟨by simp, hintact⟩
  · rcases List.mem_cons.mp he with rfl | he
    · obtain ⟨v, hedge, hmakes⟩ := evddMakenode_makes (E := ratPolicy) ratTypes_lawfulNormalize
        (ratTypes_exactField _) ratOps_meaning.norm hs (by decide : 5 ≤ evddMaxlevel)
        (Or.inl rfl) (Or.inl rfl) hx hy (ratMade_room.2.2.trans ratMade_room.2.1.symm)
      have hord := hmakes.ordered (M := evddMaxlevel) trivial trivial (by decide) (by decide)
      refine ⟨v, ⟨hedge, hord.1⟩, fun x => ?_⟩
      rw [hmakes.val_eq ratOps_meaning.norm.toCommonFactor]
      unfold WEdge.val
      simp [WTree.eval]
    · obtain rfl := List.mem_singleton.mp he
      exact ⟨w, hintact.denotes hsum, hval⟩

theorem ratMade_canonical : ratMade.1 = ratSum.1 ∧ ratMade.1.node ≠ evddTrueNode := by
  obtain ⟨heager, hsame⟩ := ratMade_eager
  obtain ⟨w, w', hw, hw', hiff⟩ := evddEager_canonical (fun x : ℚ => |x|)
    ratTypes_lawfulNormalize (ratOps_lawful .firstNonzero) (ratOps_apart _) (by decide) (by decide)
    (ValueInv.empty _) (ratTypes_exactField .firstNonzero) (Or.inl rfl) heager ratMade_room.2.2
    ratMade.1 (by simp) ratSum.1 (by simp)
  obtain ⟨v, hv, hval⟩ := hsame ratMade.1 (by simp)
  obtain ⟨v', hv', hval'⟩ := hsame ratSum.1 (by simp)
  obtain rfl := hw.unique hv
  obtain rfl := hw'.unique hv'
  exact ⟨hiff.mp fun x => (hval x).trans (hval' x).symm, by decide +kernel⟩

/-! ## Raw diagrams -/

/-- The weights `1`, `2` and `4`, and two raw nodes that differ by a scalar. -/
def rawPairCalls : List (EvddCall ℚ) :=
  [1, 2, 4].map (fun v : ℚ => .valueIntern (some v) 0) ++
    [.makenodeRaw 5 ⟨0, 2⟩ ⟨0, 3⟩, .addref ⟨1, 1⟩, .makenodeRaw 5 ⟨0, 1⟩ ⟨0, 2⟩, .addref ⟨2, 1⟩]

/-- The weights `1` and `2`, a node, a zero edge to that node and one to the terminal. -/
def zeroEdgeCalls : List (EvddCall ℚ) :=
  [1, 2].map (fun v : ℚ => .valueIntern (some v) 0) ++
    [.makenodeRaw 6 ⟨0, 1⟩ ⟨0, 2⟩, .addref ⟨1, 1⟩, .makenodeRaw 5 ⟨1, 0⟩ ⟨0, 1⟩, .addref ⟨2, 1⟩,
      .makenodeRaw 5 ⟨0, 0⟩ ⟨0, 1⟩, .addref ⟨3, 1⟩]

def zeroEdgeTree : WTree ℚ := .node 5 0 (.node 6 1 .leaf 2 .leaf) 1 .leaf

end MoToBuddy.Evdd
