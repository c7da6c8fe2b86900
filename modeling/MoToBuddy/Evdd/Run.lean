import Mathlib.Logic.Relation
import MoToBuddy.Evdd.Collect

/-!
# Runs of the EVDD package

`evddCall` is one call of the public interface, `EvddRun` any sequence of calls from one
state to another. A step lemma says what every call keeps (`evddCall_spec`), and the
results about runs follow by induction:

* the node table is a unique table, as long as no level overflows its field;
* an interned value keeps its id for as long as the id is live;
* `evdd_value_gbc` frees exactly the ids nobody can see.
-/

namespace MoToBuddy.Evdd

open Chained

variable {P : Type*} [DecidableEq P]

/-- A call of the package, with its arguments. -/
inductive EvddCall (P : Type*)
  | valueIntern (value : Option P) (type : ℕ)
  | valueAddref (id : ValueId)
  | valueDelref (id : ValueId)
  | makenode (level : ℕ) (low high : EVDD)
  | makenodeRaw (level : ℕ) (low high : EVDD)
  | normalize (root : EVDD)
  | apply (a b : EVDD) (op : ℕ)
  | addref (root : EVDD)
  | delref (root : EVDD)
  | gbc
  | valueGbc

/-- What a call returns. -/
inductive EvddResult
  | edge (e : EVDD)
  | value (id : ValueId)
  | collected (n : Except BddError ℕ)
  | void

/-- The edges a call is given. -/
def EvddCall.operands : EvddCall P → List EVDD
  | .makenode _ low high => [low, high]
  | .makenodeRaw _ low high => [low, high]
  | .normalize root => [root]
  | .apply a b _ => [a, b]
  | .addref root => [root]
  | .delref root => [root]
  | _ => []

/-- The level a call makes a node at, if any. -/
def EvddCall.level : EvddCall P → ℕ
  | .makenode level _ _ => level
  | .makenodeRaw level _ _ => level
  | _ => 0

/-- Whether a call gives up a reference. -/
def EvddCall.releases : EvddCall P → Bool
  | .valueDelref _ => true
  | .delref _ => true
  | _ => false

/-- One call. -/
def evddCall (T : ValueTypes P) (E : Policy P) (ops : EvddApplyOps P) (s : EvddState P) :
    EvddCall P → Option (EvddResult × EvddState P)
  | .valueIntern value type =>
    some (Prod.map .value id (s.withValues (evddValueIntern T · value type)))
  | .valueAddref id => some (.void, { s with values := evddValueAddref s.values id })
  | .valueDelref id => some (.void, { s with values := evddValueDelref s.values id })
  | .makenode level low high => some (Prod.map .edge id (evddMakenode T E s level low high))
  | .makenodeRaw level low high => some (Prod.map .edge id (evddMakenodeRaw T E s level low high))
  | .normalize root => (evddNormalize T E s root).map (Prod.map .edge id)
  | .apply a b op => (evddApply T E ops s a b op).map (Prod.map .edge id)
  | .addref root => some (Prod.map .edge id (evddAddref s root))
  | .delref root => some (Prod.map .edge id (evddDelref s root))
  | .gbc => some (.void, evddGbc s)
  | .valueGbc => some (Prod.map .collected id (evddValueGbc T s))

/-- A step of a session: a call that meets the callers' side condition `ok`. Collections and
growths happen at any of the points where the code may decide on them. -/
def EvddStep (T : ValueTypes P) (ops : EvddApplyOps P)
    (ok : EvddState P → EvddCall P → Prop) (s s' : EvddState P) : Prop :=
  ∃ E c r, ok s c ∧ evddCall T E ops s c = some (r, s')

/-- Any sequence of calls. -/
def EvddRun (T : ValueTypes P) (ops : EvddApplyOps P)
    (ok : EvddState P → EvddCall P → Prop) : EvddState P → EvddState P → Prop :=
  Relation.ReflTransGen (EvddStep T ops ok)

/-! ## What every call keeps -/

variable {T : ValueTypes P} {E : Policy P} {ops : EvddApplyOps P} {q : Prop}
  {s s' : EvddState P}

/-- Rows that are there before and after hold the same value of the same type. -/
def ValueTable.Stable (V V' : ValueTable P) : Prop :=
  ∀ i, (V.evddValues i).payload.isSome = true → (V'.evddValues i).payload.isSome = true →
    (V'.evddValues i).payload = (V.evddValues i).payload ∧
      (V'.evddValues i).type = (V.evddValues i).type

/-- The contract of a call. -/
structure StepSpec (q : Prop) (T : ValueTypes P) (s : EvddState P) (operands : List EVDD)
    (r : EvddResult × EvddState P) : Prop where
  inv : TableInv q r.2
  values : ValueInv T r.2.values
  refstack : r.2.evddrefstack = s.evddrefstack
  key : ∀ n, s.Held n → r.2.key n = s.key n
  stable : s.values.Stable r.2.values
  survives : ∀ i, (s.values.evddValues i).payload.isSome = true → s.Survives i →
    (r.2.values.evddValues i).payload.isSome = true
  weight : WeightInv s → (∀ e ∈ operands, s.values.Valid e.w) →
    WeightInv r.2 ∧ ∀ e, r.1 = .edge e → r.2.values.Valid e.w

omit [DecidableEq P] in
theorem ValueTable.Ext.stable {V V' : ValueTable P} (h : V.Ext V') : V.Stable V' :=
  fun i hi _ => by rw [h i hi]; exact ⟨rfl, rfl⟩

omit [DecidableEq P] in
theorem ValueTable.Ext.isSome {V V' : ValueTable P} (h : V.Ext V') {i : ℕ}
    (hi : (V.evddValues i).payload.isSome = true) :
    (V'.evddValues i).payload.isSome = true := by
  rw [h i hi]
  exact hi

omit [DecidableEq P] in
theorem ValueTable.Same.stable {V V' : ValueTable P} (h : V.Same V') : V.Stable V' :=
  fun i _ _ => h i

/-- A call that returns an edge. -/
theorem CallFrame.step {operands : List EVDD} {r : EVDD × EvddState P}
    (h : CallFrame q T s operands r) (hV : ValueInv T s.values) :
    StepSpec q T s operands (.edge r.1, r.2) := by
  have hext := h.values hV
  refine ⟨h.inv, hext.inv, h.refstack, h.keeps.key, hext.ext.stable,
    fun i hi _ => hext.ext.isSome hi, fun hw hop => ?_⟩
  obtain ⟨hw', hv⟩ := h.weight hV hw hop
  refine ⟨hw', fun e he => ?_⟩
  obtain rfl := EvddResult.edge.inj he
  exact hv

/-- A call that changes rows only, and keeps their values. -/
theorem StepSpec.of_values (h : TableInv q s) {V : ValueTable P} (hV : ValueInv T V)
    (hstable : s.values.Stable V)
    (hkeep : ∀ i, (s.values.evddValues i).payload.isSome = true →
      (V.evddValues i).payload.isSome = true) {res : EvddResult} (operands : List EVDD)
    (hres : ∀ e, res ≠ .edge e) :
    StepSpec q T s operands (res, { s with values := V }) := by
  have hvalid : ∀ id, s.values.Valid id → V.Valid id := fun id hid => hid.imp_right (hkeep id)
  refine ⟨h.setValues V, hV, rfl, fun _ _ => rfl, hstable, fun i hi _ => hkeep i hi,
    fun hw _ => ⟨⟨fun n hn => ?_, hw.free, fun i hi w hwi => hvalid w (hw.cache i hi w hwi)⟩,
      fun e he => absurd he (hres e)⟩⟩
  exact ⟨hvalid _ (hw.node n hn).1, hvalid _ (hw.node n hn).2⟩

omit [DecidableEq P] in
theorem evddChangeref_edge (count : EvddState P → ℕ → EvddState P)
    (value : ValueTable P → ValueId → ValueTable P) (root : EVDD) :
    (evddChangeref count value s root).1 = root ∨
      (evddChangeref count value s root).1 = evddFalse := by
  rw [evddChangeref]
  split
  · exact Or.inl rfl
  split
  · exact Or.inr rfl
  split
  · exact Or.inr rfl
  · exact Or.inl rfl

/-- `evdd_addref` and `evdd_delref`. -/
theorem Recounted.step {r : EVDD × EvddState P} (h : Recounted q T s r.2)
    (hV : ValueInv T s.values) {root : EVDD} (hr : r.1 = root ∨ r.1 = evddFalse) :
    StepSpec q T s [root] (.edge r.1, r.2) := by
  obtain ⟨hV', hsame⟩ := h.values hV
  refine ⟨h.inv, hV', h.refstack, fun n _ => h.key n, hsame.stable, fun i hi _ => ?_,
    fun hw hop => ⟨h.weight hV hw, fun e he => ?_⟩⟩
  · rw [(hsame i).1]
    exact hi
  · obtain rfl := EvddResult.edge.inj he
    rcases hr with hr | hr <;> rw [hr]
    · exact hsame.valid (hop root (by simp))
    · exact ValueTable.valid_zero _

/-- What one call keeps. -/
theorem evddCall_spec (hT : LawfulNormalize T) (hops : ∀ op, LawfulOp T (ops op))
    (h : TableInv q s) (hV : ValueInv T s.values) {c : EvddCall P}
    (hlevel : q → c.level < 2 ^ 21) {r : EvddResult × EvddState P}
    (hr : evddCall T E ops s c = some r) : StepSpec q T s c.operands r := by
  cases c with
  | valueIntern value type =>
    obtain rfl := Option.some.inj hr
    have hext := evddValueIntern_extends hV value type
    exact .of_values h hext.inv hext.ext.stable (fun i hi => hext.ext.isSome hi) _
      (by simp)
  | valueAddref id =>
    obtain rfl := Option.some.inj hr
    obtain ⟨hV', hsame⟩ := evddValueAddref_recounts (T := T) _ hV id
    exact .of_values h hV' hsame.stable (fun i hi => by rw [(hsame i).1]; exact hi) _ (by simp)
  | valueDelref id =>
    obtain rfl := Option.some.inj hr
    obtain ⟨hV', hsame⟩ := evddValueDelref_recounts (T := T) _ hV id
    exact .of_values h hV' hsame.stable (fun i hi => by rw [(hsame i).1]; exact hi) _ (by simp)
  | makenode level low high =>
    obtain rfl := Option.some.inj hr
    exact (evddMakenode_call hT h low high hlevel).toCallFrame.step hV
  | makenodeRaw level low high =>
    obtain rfl := Option.some.inj hr
    exact (evddMakenodeRaw_frame h low high hlevel).step hV
  | normalize root =>
    obtain ⟨out, hout, rfl⟩ := Option.map_eq_some_iff.mp hr
    exact (evddNormalize_frame hT h hout).step hV
  | apply a b op =>
    obtain ⟨out, hout, rfl⟩ := Option.map_eq_some_iff.mp hr
    exact (evddApply_call hT (hops op) h hout).1.step hV
  | addref root =>
    obtain rfl := Option.some.inj hr
    exact (evddAddref_spec h root).step hV (evddChangeref_edge _ _ root)
  | delref root =>
    obtain rfl := Option.some.inj hr
    exact (evddDelref_spec h root).step hV (evddChangeref_edge _ _ root)
  | gbc =>
    obtain rfl := Option.some.inj hr
    obtain ⟨hi, hc⟩ := evddGbc_spec h
    have hval := hc.rest.values
    refine ⟨hi, hval ▸ hV, hc.rest.refstack, hc.key, hval ▸ (ValueTable.Ext.refl _).stable,
      fun i hi' _ => by rw [hval]; exact hi', fun hw _ => ⟨⟨fun n hn => ?_, fun n hn => ?_,
        fun i hi' => ?_⟩, by simp⟩⟩
    · have hheld := (hc.live n).mp hn
      rw [hc.key n hheld, hval]
      exact hw.node n hheld.live
    · rcases hc.other n with hk | hk <;> rw [hk] at hn ⊢
      · exact hw.free n hn
      · exact ⟨rfl, rfl⟩
    · exact absurd ((hc.cache i).symm.trans hi') Bool.false_ne_true
  | valueGbc =>
    obtain rfl := Option.some.inj hr
    by_cases hst : s.evddrefstack = []
    · have hc := evddValueGbc_spec h hV hst
      generalize evddValueGbc T s = r at hc ⊢
      have hcol := hc.collected h
      refine ⟨hc.inv, hc.values, hcol.rest.refstack, hcol.key, fun i hi hi' => ?_,
        fun i hi hs => ?_, fun hw _ => ⟨hc.weight h hw, by simp⟩⟩
      · by_cases hs : s.Survives i
        · have hk := hc.kept i hi hs
          exact ⟨congrArg EvddValueRow.payload hk, congrArg EvddValueRow.type hk⟩
        · have hf := hc.freed i hs
          exact absurd hi' (by simp [hf])
      · have hk := hc.kept i hi hs
        exact (congrArg (fun row => row.payload.isSome) hk).trans hi
    · rw [evddValueGbc_busy hst]
      exact ⟨h.error _, hV, rfl, fun _ _ => rfl, (ValueTable.Ext.refl _).stable,
        fun i hi _ => hi, fun hw _ => ⟨hw.error _, by simp⟩⟩

omit [DecidableEq P] in
/-- Nodes stay held if the keys of the held nodes, the stack and the references stay. -/
theorem EvddState.held_of_refcou (hkey : ∀ n, s.Held n → s'.key n = s.key n)
    (hstack : s'.evddrefstack = s.evddrefstack)
    (hle : ∀ n, (s.evddnodes n).refcou ≤ (s'.evddnodes n).refcou) {n : ℕ} (h : s.Held n) :
    s'.Held n := by
  refine EvddState.Held.congr hkey (fun r hr hl => ⟨r, ?_, .refl ?_⟩) h
  · rcases hr with hr | hr
    · exact Or.inl (hr.trans_le (hle r))
    · right
      rw [hstack]
      exact hr
  · rw [EvddState.live_congr (hkey r ⟨r, hr, .refl hl⟩)]
    exact hl

/-- A call that gives up no reference leaves nodes held and rows referenced. -/
theorem evddCall_protects (hT : LawfulNormalize T) (hops : ∀ op, LawfulOp T (ops op))
    (h : TableInv q s) (hV : ValueInv T s.values) {c : EvddCall P}
    (hlevel : q → c.level < 2 ^ 21) (hc : c.releases = false)
    {r : EvddResult × EvddState P} (hr : evddCall T E ops s c = some r) :
    (∀ n, s.Held n → r.2.Held n) ∧ ∀ i, (s.values.evddValues i).payload.isSome = true →
      0 < (s.values.evddValues i).refcou → 0 < (r.2.values.evddValues i).refcou := by
  have hframe : ∀ {operands : List EVDD} {r : EVDD × EvddState P},
      CallFrame q T s operands r → (∀ n, s.Held n → r.2.Held n) ∧
        ∀ i, (s.values.evddValues i).payload.isSome = true →
          0 < (s.values.evddValues i).refcou → 0 < (r.2.values.evddValues i).refcou :=
    fun hf => ⟨hf.keeps.held, fun i hi hp => by rw [(hf.values hV).ext i hi]; exact hp⟩
  cases c with
  | valueIntern value type =>
    obtain rfl := Option.some.inj hr
    refine ⟨fun _ h => h, fun i hi hp => ?_⟩
    have hrow := (evddValueIntern_extends hV value type).ext i hi
    exact hp.trans_eq (congrArg EvddValueRow.refcou hrow).symm
  | valueAddref id =>
    obtain rfl := Option.some.inj hr
    exact ⟨fun _ h => h, fun i _ hp => hp.trans_le (evddValueAddref_le s.values id i)⟩
  | valueDelref id => exact absurd hc.symm Bool.false_ne_true
  | makenode level low high =>
    obtain rfl := Option.some.inj hr
    exact hframe (evddMakenode_call hT h low high hlevel).toCallFrame
  | makenodeRaw level low high =>
    obtain rfl := Option.some.inj hr
    exact hframe (evddMakenodeRaw_frame h low high hlevel)
  | normalize root =>
    obtain ⟨out, hout, rfl⟩ := Option.map_eq_some_iff.mp hr
    exact hframe (evddNormalize_frame hT h hout)
  | apply a b op =>
    obtain ⟨out, hout, rfl⟩ := Option.map_eq_some_iff.mp hr
    exact hframe (evddApply_call hT (hops op) h hout).1
  | addref root =>
    obtain rfl := Option.some.inj hr
    obtain ⟨hn, hv⟩ := evddAddref_le s root
    have hs := evddAddref_spec (T := T) h root
    exact ⟨fun n hh => EvddState.held_of_refcou (fun n _ => hs.key n) hs.refstack hn hh,
      fun i _ hp => hp.trans_le (hv i)⟩
  | delref root => exact absurd hc.symm Bool.false_ne_true
  | gbc =>
    obtain rfl := Option.some.inj hr
    obtain ⟨-, hcol⟩ := evddGbc_spec h
    exact ⟨hcol.keeps.held, fun i _ hp => by rw [hcol.rest.values]; exact hp⟩
  | valueGbc =>
    obtain rfl := Option.some.inj hr
    by_cases hst : s.evddrefstack = []
    · have hcol := evddValueGbc_spec h hV hst
      generalize evddValueGbc T s = r at hcol ⊢
      refine ⟨(hcol.collected h).keeps.held, fun i hi hp => ?_⟩
      have hrow := hcol.kept i hi (Or.inl hp)
      exact hp.trans_eq (congrArg EvddValueRow.refcou hrow).symm
    · rw [evddValueGbc_busy hst]
      exact ⟨fun _ hh => hh, fun _ _ hp => hp⟩

/-! ## Runs -/

omit [DecidableEq P] in
/-- `evdd_init` establishes the invariants. -/
theorem evddInit_inv {size cachesize : ℕ} (hsize : 2 ≤ size) (hcache : 0 < cachesize)
    (maxsize : ℕ) (V : ValueTable P) :
    TableInv q (evddInit size maxsize cachesize V) ∧
      GraphInv (evddInit size maxsize cachesize V) ∧
      WeightInv (evddInit size maxsize cachesize V) := by
  set s := evddInit size maxsize cachesize V with hs
  have h0 : s.key evddTrueNode = .terminal := rfl
  have hnode : ∀ n, n ≠ 0 → s.evddnodes n = .free 0 (if n + 1 = size then 0 else n + 1) :=
    fun n hn => if_neg hn
  have hkey : ∀ n, n ≠ 0 → s.key n = .free := by
    intro n hn
    rw [EvddState.key, hnode n hn]
    rfl
  have hlive : ∀ n, s.live n = false := by
    intro n
    by_cases hn : n = 0
    · simp [EvddState.live, hn]
    · simp [EvddState.live, hkey n hn, EvddKey.free]
  have hdead : ∀ n, s.live n ≠ true := fun n => by rw [hlive n]; exact Bool.false_ne_true
  have hvalid : ∀ i, s.evddApplycache.isValid i ≠ true := fun i =>
    (by decide : ¬ decide ((0 : UInt32) = 1) = true)
  have hempty : FreeList 1 1 (s.live · = true) ⟨fun _ => 0, fun _ => 0, 0, 0⟩ :=
    ⟨[], rfl, List.nodup_nil, rfl, fun n => by
      simp only [List.not_mem_nil, false_iff]
      omega⟩
  have hfree : FreeList 1 size (s.live · = true) s.links := by
    have hlinks : s.links = ⟨fun n => (s.evddnodes n).hash, fun n => (s.evddnodes n).next, 1,
        0 + (size - 1)⟩ := by
      rw [Nat.zero_add]
      rfl
    rw [hlinks]
    refine hempty.extend (le_refl 1) (by omega) (by omega) (fun n h1 h2 => by omega)
      (fun n h1 h2 => ?_) ?_ (fun n h1 h2 => by omega) (fun n _ _ => hdead n) _
    · rw [hnode n (by omega)]
      exact if_neg (by omega)
    · rw [hnode (size - 1) (by omega)]
      exact if_pos (by omega)
  refine ⟨?_, ⟨fun n hn => absurd hn (hdead n), ⟨fun _ => 0, rfl, fun n hn => absurd hn (hdead n)⟩,
    by simp [hs, evddInit], fun i hi => absurd hi (hvalid i)⟩,
    ⟨fun n hn => absurd hn (hdead n), fun n hn => ?_, fun i hi => absurd hi (hvalid i)⟩⟩
  · exact
      { running := ⟨rfl, rfl⟩
        size := hsize
        terminal := h0
        beyond := fun n _ => hlive n
        refcou := fun n hn => by
          by_contra hne
          push Not at hne
          rw [hnode n hne.1] at hn
          exact absurd hn (lt_irrefl 0)
        mark := fun n => by
          by_cases hn : n = 0
          · rw [hn]
            rfl
          · rw [hnode n hn]
            rfl
        level := fun n => by
          by_cases hn : n = 0
          · rw [hn, h0]
            decide
          · rw [hkey n hn]
            decide
        table := by
          refine ⟨s.bucket, ⟨fun b _ => ⟨[], ?_, List.nodup_nil, fun n => ?_⟩, hfree⟩,
            fun _ _ _ => rfl⟩
          · by_cases hb : b = 0
            · rw [hb]
              rfl
            · change (s.evddnodes b).hash = 0
              rw [hnode b hb]
              rfl
          · simp [hlive n]
        unique := fun _ n m hn => absurd hn (hdead n)
        cacheSize := hcache
        cacheGen := ⟨(by decide : (1 : UInt32) ≠ 0), fun _ => (by decide : (0 : UInt32) ≤ 1)⟩ }
  · by_cases h : n = 0
    · rw [h, h0] at hn
      exact absurd hn (by decide)
    · rw [hkey n h]
      exact ⟨rfl, rfl⟩

theorem EvddRun.mono {ok ok' : EvddState P → EvddCall P → Prop}
    (hok : ∀ s c, ok s c → ok' s c) (hrun : EvddRun T ops ok s s') : EvddRun T ops ok' s s' :=
  hrun.lift id fun s _ ⟨E, c, r, h, hr⟩ => ⟨E, c, r, hok s c h, hr⟩

/-- What holds in every state of a session, whatever its callers do. -/
theorem EvddRun.inv (hT : LawfulNormalize T) (hops : ∀ op, LawfulOp T (ops op))
    {ok : EvddState P → EvddCall P → Prop}
    (hlevel : q → ∀ s c, ok s c → c.level < 2 ^ 21) (h : TableInv q s)
    (hV : ValueInv T s.values) (hrun : EvddRun T ops ok s s') :
    TableInv q s' ∧ ValueInv T s'.values ∧ s'.evddrefstack = s.evddrefstack := by
  induction hrun with
  | refl => exact ⟨h, hV, rfl⟩
  | tail _ hstep ih =>
    obtain ⟨E, c, r, hok, hr⟩ := hstep
    have hs := evddCall_spec hT hops ih.1 ih.2.1 (fun hq => hlevel hq _ c hok) hr
    exact ⟨hs.inv, hs.values, hs.refstack.trans ih.2.2⟩

end MoToBuddy.Evdd
