import MoToBuddy.Evdd.Rational
import MoToBuddy.Evdd.Run
import MoToBuddy.Evdd.Unfold

/-!
# Results about sessions

What the callers of the package can rely on after any sequence of calls: the shape of the
unique table, the identity of interned values, and what `evdd_value_gbc` takes away.
-/

namespace MoToBuddy.Evdd

open Chained Marking Weighted

variable {P : Type*} [DecidableEq P] {T : ValueTypes P} {ops : EvddApplyOps P} {q : Prop}
  {s s' t : EvddState P}

/-! ## The unique table -/

/-- Chains, keys, free list and marks of the node table. -/
structure UniqueTable (s : EvddState P) : Prop where
  /-- Every node occurs once, in the chain of the bucket of its key. -/
  chain : ∃ chain : ℕ → List ℕ,
    (∀ b < s.evddnodesize,
      IsChain (fun n => (s.evddnodes n).next) (s.evddnodes b).hash (chain b) ∧
        ∀ n ∈ chain b, s.live n = true) ∧
    ∀ n, s.live n = true → s.bucket n < s.evddnodesize ∧ (chain (s.bucket n)).count n = 1 ∧
      ∀ b < s.evddnodesize, n ∈ chain b → b = s.bucket n
  key : ∀ n m, s.live n = true → s.live m = true → s.key n = s.key m → n = m
  /-- The free list holds exactly the other slots. -/
  free : ∃ l, IsChain (fun n => (s.evddnodes n).next) s.evddfreepos l ∧ l.Nodup ∧
    l.length = s.evddfreenum ∧
    ∀ n, n ∈ l ↔ (1 ≤ n ∧ n < s.evddnodesize) ∧ s.live n = false
  mark : ∀ n, (s.evddnodes n).mark = false

omit [DecidableEq P] in
theorem TableInv.uniqueTable (h : TableInv True s) : UniqueTable s := by
  obtain ⟨bucket, hthr, hbucket⟩ := h.table
  have hbucket' := hbucket trivial
  have hlt : ∀ n, s.bucket n < s.evddnodesize := fun n => by
    have hsize := h.size
    rw [EvddState.bucket, evddNodehash]
    exact hashrange_lt _ (by omega)
  refine ⟨?_, h.unique trivial, ?_, h.mark⟩
  · choose! chain hchain hnd hmem using hthr.chain
    refine ⟨chain, fun b hb => ⟨hchain b hb, fun n hn => ((hmem b hb n).mp hn).2.1⟩,
      fun n hn => ⟨hlt n, ?_, fun b hb hnb => ?_⟩⟩
    · have hmn : n ∈ chain (s.bucket n) := (hmem _ (hlt n) n).mpr
        ⟨⟨Nat.one_le_iff_ne_zero.mpr (EvddState.live_iff.mp hn).1, h.live_lt hn⟩, hn,
          hbucket' n hn⟩
      exact List.count_eq_one_of_mem (hnd _ (hlt n)) hmn
    · have hb' := ((hmem b hb n).mp hnb).2.2
      rw [← hb', hbucket' n hn]
  · obtain ⟨l, hc, hnd, hlen, hm⟩ := hthr.free
    refine ⟨l, hc, hnd, hlen, fun n => (hm n).trans ?_⟩
    rw [Bool.not_eq_true]

/-- As long as the levels of new nodes fit into their field, the node table is a unique table
after any sequence of calls. -/
theorem evddRun_uniqueTable (hT : LawfulNormalize T) (hops : ∀ op, LawfulOp T (ops op))
    {size maxsize cachesize : ℕ} (hsize : 2 ≤ size) (hcache : 0 < cachesize)
    {V : ValueTable P} (hV : ValueInv T V)
    (hrun : EvddRun T ops (fun _ c => c.level ≤ evddMaxlevel)
      (evddInit size maxsize cachesize V) s) : UniqueTable s := by
  have hinit := (evddInit_inv (q := True) hsize hcache maxsize V).1
  exact (hrun.inv hT hops (fun _ _ _ hok => Nat.lt_succ_of_le hok) hinit hV).1.uniqueTable

/-- A list of calls, one after the other. -/
def evddCalls (T : ValueTypes P) (E : Policy P) (ops : EvddApplyOps P) :
    List (EvddCall P) → EvddState P → Option (EvddState P)
  | [], s => some s
  | c :: l, s => (evddCall T E ops s c).bind fun r => evddCalls T E ops l r.2

theorem evddCalls_run {E : Policy P} {ok : EvddState P → EvddCall P → Prop}
    {l : List (EvddCall P)} (hok : ∀ c ∈ l, ∀ s, ok s c) {s s' : EvddState P}
    (h : evddCalls T E ops l s = some s') : EvddRun T ops ok s s' := by
  induction l generalizing s with
  | nil =>
    obtain rfl := Option.some.inj h
    exact .refl
  | cons c l ih =>
    obtain ⟨r, hr, hl⟩ := Option.bind_eq_some_iff.mp h
    exact .head ⟨E, c, r.1, hok c (by simp) s, hr⟩ (ih (fun c' hc => hok c' (by simp [hc])) hl)

/-- A list of calls that ends in a state with a decidable property. -/
theorem evddCalls_exists (E : Policy P) {ok : EvddState P → EvddCall P → Prop}
    (l : List (EvddCall P)) (p : EvddState P → Bool) (hok : ∀ c ∈ l, ∀ s, ok s c)
    {s : EvddState P} (h : (evddCalls T E ops l s).map p = some true) :
    ∃ s', EvddRun T ops ok s s' ∧ p s' = true := by
  obtain ⟨s', hs', hp⟩ := Option.map_eq_some_iff.mp h
  exact ⟨s', evddCalls_run hok hs', hp⟩

/-- The session of the examples: rational weights, a table of seven slots. -/
def ratSession : EvddState ℚ := evddInit 7 0 3 .empty

def ratPolicy : Policy ℚ := .onDemand (fun _ => true) fun _ _ => true

theorem ratSession_uniqueTable : ∃ s : EvddState ℚ, s.live 1 = true ∧ UniqueTable s := by
  obtain ⟨s, hrun, hs⟩ : ∃ s, EvddRun (ratTypes .firstNonzero) (ratOps .firstNonzero)
      (fun _ c => c.level ≤ evddMaxlevel) ratSession s ∧ s.live 1 = true :=
    evddCalls_exists ratPolicy
      [.valueIntern (some 1) 0, .makenodeRaw 5 ⟨0, 0⟩ ⟨0, 1⟩, .addref ⟨1, 1⟩, .gbc]
      (fun s => s.live 1) (by simp +decide [EvddCall.level]) (by decide +kernel)
  exact ⟨s, hs, evddRun_uniqueTable ratTypes_lawfulNormalize (ratOps_lawful _) (by decide)
    (by decide) (ValueInv.empty (ratTypes .firstNonzero)) hrun⟩

/-- Level `2^21` is stored as `0`, but looked up as it was passed in: making a node twice
there makes two nodes with the same key. -/
theorem evddRun_duplicate : ∃ s, EvddRun (ratTypes .firstNonzero) (ratOps .firstNonzero)
    (fun _ _ => True) ratSession s ∧ ¬ UniqueTable s := by
  obtain ⟨s, hrun, hs⟩ := evddCalls_exists ratPolicy
    [.valueIntern (some 1) 0, .makenodeRaw 0x200000 ⟨0, 0⟩ ⟨0, 1⟩,
      .makenodeRaw 0x200000 ⟨0, 0⟩ ⟨0, 1⟩]
    (fun s => s.live 1 && s.live 2 && s.key 1 = s.key 2) (fun _ _ _ => trivial)
    (show (evddCalls (ratTypes .firstNonzero) ratPolicy (ratOps .firstNonzero) _
      ratSession).map _ = some true by decide +kernel)
  simp only [Bool.and_eq_true, decide_eq_true_eq] at hs
  refine ⟨s, hrun, fun h => ?_⟩
  have := h.key 1 2 hs.1.1 hs.1.2 hs.2
  omega

/-! ## Interned values -/

/-- A step through which `id`, unless it is the bare zero, stays live. -/
def EvddLiveStep (T : ValueTypes P) (ops : EvddApplyOps P) (id : ValueId)
    (s s' : EvddState P) : Prop :=
  EvddStep T ops (fun _ _ => True) s s' ∧
    (id ≠ evddValueZero → evddValueLive s'.values id = true)

/-- A row keeps its value and its type for as long as it is live. -/
theorem evddLiveRun_row (hT : LawfulNormalize T) (hops : ∀ op, LawfulOp T (ops op))
    (h : TableInv False s) (hV : ValueInv T s.values) {id : ValueId} {u : P}
    (hu : (s.values.evddValues id).payload = some u)
    (hrun : Relation.ReflTransGen (EvddLiveStep T ops id) s t) :
    (TableInv False t ∧ ValueInv T t.values) ∧ (t.values.evddValues id).payload = some u ∧
      (t.values.evddValues id).type = (s.values.evddValues id).type := by
  have hid : id ≠ evddValueZero := (hV.read hu).1
  induction hrun with
  | refl => exact ⟨⟨h, hV⟩, hu, rfl⟩
  | tail _ hstep ih =>
    obtain ⟨⟨hi, hVi⟩, hpay, htype⟩ := ih
    obtain ⟨⟨E, c, r, -, hr⟩, hlive⟩ := hstep
    have hs := evddCall_spec hT hops hi hVi (fun hq => hq.elim) hr
    have hsome := (evddValueLive_iff hs.values id).mp (hlive hid)
    obtain ⟨hp, ht⟩ := hs.stable id (by simp [hpay]) hsome
    exact ⟨⟨hs.inv, hs.values⟩, hp.trans hpay, ht.trans htype⟩

/-- Value interning over whole runs. -/
theorem evddRun_valueIntern (type' : ℕ) (hT : LawfulNormalize T)
    (hops : ∀ op, LawfulOp T (ops op)) {size maxsize cachesize : ℕ} (hsize : 2 ≤ size)
    (hcache : 0 < cachesize) {type : ℕ} (hcmp : LawfulCompare T type) (hcmp' : LawfulCompare T type')
    (htype : type < T.typeNumber) {value : P} (value' : P)
    (hrun : EvddRun T ops (fun _ _ => True) (evddInit size maxsize cachesize .empty) s)
    {id : ValueId} {V : ValueTable P}
    (hintern : evddValueIntern T s.values (some value) type = (id, V))
    (hlive : Relation.ReflTransGen (EvddLiveStep T ops id) { s with values := V } t) :
    -- the bare zero stands for the zero payloads
    (id = evddValueZero ↔ isZeroPayload T type value = true) ∧
    -- any other id keeps its value, and is returned for equal values of its type only
    (id ≠ evddValueZero →
      (∃ u, evddValueGet t.values id = some u ∧ compareOf T type value u = true) ∧
      evddValueTypeOf t.values id = some type ∧
      ((evddValueIntern T t.values (some value') type').1 = id ↔
        isZeroPayload T type' value' = false ∧ type = type' ∧
          compareOf T type value value' = true)) ∧
    -- the index finds every live row of a type with a hash
    ∀ i u hashfun, evddValueGet s.values i = some u →
      evddValueTypeOf s.values i = some type → (T.fns type).hashfun = some hashfun →
      evddValueIdxLookup T s.values (hashfun u) type u = i := by
  have hinit := (evddInit_inv (P := P) (q := False) hsize hcache maxsize .empty).1
  obtain ⟨hi, hV, -⟩ := hrun.inv hT hops (fun hq => hq.elim) hinit (ValueInv.empty T)
  have hspec := evddValueIntern_spec hV (some value) type
  rw [hintern] at hspec
  have hzero : id = evddValueZero ↔ isZeroPayload T type value = true := by
    refine hspec.zero.trans ⟨fun h => (h value rfl).resolve_left (by omega), fun h v hv => ?_⟩
    obtain rfl := Option.some.inj hv
    exact Or.inr h
  refine ⟨hzero, fun hid => ?_, fun i u hashfun hu ht hh => ?_⟩
  · obtain ⟨v, u, hv, hu, ht, hcase⟩ := hspec.row hid
    obtain rfl := Option.some.inj hv
    have hcu : compareOf T type value u = true := by
      rcases hcase with ⟨rfl, -, -⟩ | ⟨-, hc⟩
      · exact hcmp.refl u
      · exact hc
    obtain ⟨⟨-, hVt⟩, hut, htt⟩ := evddLiveRun_row hT hops (hi.setValues V) hspec.inv hu hlive
    replace htt : (t.values.evddValues id).type = type := htt.trans ht
    have hread := hVt.read hut
    rw [htt] at hread
    refine ⟨⟨u, hread.2.2.2, hcu⟩, hread.2.2.1, ?_⟩
    rw [evddValueIntern_eq_iff hVt hcmp' value' hut, htt]
    refine and_congr_right fun _ => and_congr_right fun heq => ?_
    subst heq
    constructor
    · exact fun h => hcmp.trans _ _ _ hcu (hcmp.symm _ _ h)
    · exact fun h => hcmp.trans _ _ _ (hcmp.symm _ _ h) hcu
  · have hi0 : i ≠ 0 := fun h0 => by simp [evddValueGet, h0] at hu
    have hpay : (s.values.evddValues i).payload = some u := by
      rw [evddValueGet] at hu
      split at hu
      · exact absurd hu (Option.some_ne_none u).symm
      · exact hu
    have htype' := (hV.read hpay).2.2.1
    rw [ht] at htype'
    exact evddValueIdxLookup_eq hV hcmp hh ⟨u, hpay, (Option.some.inj htype').symm, hcmp.refl u⟩

/-- Seventeen values, of which a collection keeps the first, and another one. -/
def internCalls : List (EvddCall ℚ) :=
  (List.range 17).map (fun k => .valueIntern (some (k + 2)) 0) ++
    [.valueAddref 1, .valueGbc, .valueIntern (some 100) 0]

/-- The table has grown, a slot is used again, and another collection leaves the first value. -/
def slotReused (s : EvddState ℚ) : Bool :=
  let r := evddValueIntern (ratTypes .firstNonzero) s.values (some 2) 0
  let t := (evddValueGbc (ratTypes .firstNonzero) { s with values := r.2 }).2
  (s.values.evddmaxValueSize = 32 && evddValueGet s.values 17 = some 100) &&
    (r.1 = 1 && evddValueLive t.values 1)

/-- The table has grown and a slot is used again. The value that was kept has its old id, also after
another collection. -/
theorem ratSession_valueIntern : ∃ s : EvddState ℚ,
    EvddRun (ratTypes .firstNonzero) (ratOps .firstNonzero) (fun _ _ => True) ratSession s ∧
    s.values.evddmaxValueSize = 32 ∧ evddValueGet s.values 17 = some 100 ∧
    let r := evddValueIntern (ratTypes .firstNonzero) s.values (some 2) 0
    let t := (evddValueGbc (ratTypes .firstNonzero) { s with values := r.2 }).2
    r.1 = 1 ∧ (evddValueIntern (ratTypes .firstNonzero) t.values (some 2) 0).1 = 1 ∧
      (evddValueIntern (ratTypes .firstNonzero) t.values (some 3) 0).1 ≠ 1 := by
  obtain ⟨s, hrun, hs⟩ : ∃ s, EvddRun (ratTypes .firstNonzero) (ratOps .firstNonzero)
      (fun _ _ => True) ratSession s ∧ slotReused s = true :=
    evddCalls_exists ratPolicy internCalls slotReused (fun _ _ _ => trivial) (by decide +kernel)
  unfold slotReused at hs
  simp only [Bool.and_eq_true, decide_eq_true_eq] at hs
  obtain ⟨⟨hsize, hreused⟩, hid, hlive⟩ := hs
  refine ⟨s, hrun, hsize, hreused, ?_⟩
  generalize hr : evddValueIntern (ratTypes .firstNonzero) s.values (some 2) 0 = r at hid hlive ⊢
  obtain ⟨id, V⟩ := r
  obtain rfl : id = 1 := hid
  have hstep : EvddLiveStep (ratTypes .firstNonzero) (ratOps .firstNonzero) 1
      { s with values := V } (evddValueGbc (ratTypes .firstNonzero) { s with values := V }).2 :=
    ⟨⟨ratPolicy, .valueGbc, _, trivial, rfl⟩, fun _ => hlive⟩
  have hintern := fun value' => evddRun_valueIntern 0 ratTypes_lawfulNormalize
    (ratOps_lawful .firstNonzero) (by decide) (by decide) (ratTypes_lawfulCompare _ 0)
    (ratTypes_lawfulCompare _ 0) (by decide) value' hrun hr (.single hstep)
  have hne : (1 : ValueId) ≠ evddValueZero := by decide
  exact ⟨rfl, ((hintern 2).2.1 hne).2.2.mpr (by decide),
    mt ((hintern 3).2.1 hne).2.2.mp (by decide)⟩

/-! ## What `evdd_value_gbc` takes away -/

/-- An edge whose node and whose weight a collection must keep. -/
def EvddState.Protects (s : EvddState P) (e : EVDD) : Prop :=
  (e.node = evddTrueNode ∨ s.Held e.node) ∧ (e.w = evddValueZero ∨ s.Survives e.w)

omit [DecidableEq P] in
/-- A referenced edge is protected. -/
theorem protects_of_refcou (h : TableInv q s) {e : EVDD}
    (hn : e.node = evddTrueNode ∨ 0 < (s.evddnodes e.node).refcou)
    (hw : e.w = evddValueZero ∨ 0 < (s.values.evddValues e.w).refcou) : s.Protects e := by
  refine ⟨?_, hw.imp_right Or.inl⟩
  rcases hn with hn | hn
  · exact Or.inl hn
  · exact (h.refcou _ hn).imp_right fun hl => ⟨_, Or.inl hn, .refl hl⟩

/-- A call leaves a protected edge the tree that it represents, with the payloads on it. -/
theorem evddCall_edge (hT : LawfulNormalize T) (hops : ∀ op, LawfulOp T (ops op))
    {E : Policy P} (h : TableInv False s) (hV : ValueInv T s.values) {c : EvddCall P}
    {r : EvddResult × EvddState P} (hr : evddCall T E ops s c = some r) {e : EVDD}
    (he : s.Protects e) {w : Option (P × ℕ)} {τ : WTree (Option (P × ℕ))}
    (hedge : s.Edge s.values.read e w τ) : r.2.Edge r.2.values.read e w τ := by
  have hs := evddCall_spec hT hops h hV (fun hq => hq.elim) hr
  have hread : ∀ id, id = evddValueZero ∨ s.Survives id → ∀ w, s.values.read id = some w →
      r.2.values.read id = some w := by
    intro id hid w hw
    rcases ValueTable.read_some hw with rfl | hsome
    · exact hw
    rcases hid with rfl | hsurv
    · exact hw
    obtain ⟨hp, ht⟩ := hs.stable id hsome (hs.survives id hsome hsurv)
    rw [ValueTable.read_of_row hp ht, hw]
  have hheld : ∀ m, Reach s.live s.succ e.node m → s.Held m := by
    intro m hm
    rcases he.1 with h0 | ⟨root, hroot, hreach⟩
    · exact absurd (EvddState.live_iff.mp hm.live_left).1 (by simp [h0])
    · exact ⟨root, hroot, hreach.trans hm⟩
  exact ⟨hread _ he.2 _ hedge.1, hedge.2.congr (fun m hm => hs.key m (hheld m hm))
    fun m hm id hid => hread id (Or.inr (Or.inr ⟨m, hheld m hm, hid⟩))⟩

/-- A call that gives up no reference leaves an edge protected. -/
theorem evddCall_protects_edge (hT : LawfulNormalize T) (hops : ∀ op, LawfulOp T (ops op))
    {E : Policy P} (h : TableInv False s) (hV : ValueInv T s.values) {c : EvddCall P}
    (hc : c.releases = false) {r : EvddResult × EvddState P}
    (hr : evddCall T E ops s c = some r) {e : EVDD} (he : s.Protects e)
    {w : Option (P × ℕ)} (hw : s.values.read e.w = some w) : r.2.Protects e := by
  have hs := evddCall_spec hT hops h hV (fun hq => hq.elim) hr
  obtain ⟨hheld, hcount⟩ := evddCall_protects hT hops h hV (fun hq => hq.elim) hc hr
  refine ⟨he.1.imp_right (hheld _), ?_⟩
  rcases ValueTable.read_some hw with h0 | hsome
  · exact Or.inl h0
  · refine he.2.imp_right fun hsurv => ?_
    rcases hsurv with hp | ⟨n, hn, hid⟩
    · exact Or.inl (hcount _ hsome hp)
    · refine Or.inr ⟨n, hheld n hn, ?_⟩
      rw [hs.key n hn]
      exact hid

/-- A protected edge keeps its tree through any calls that give up no reference. -/
theorem evddRun_edge (hT : LawfulNormalize T) (hops : ∀ op, LawfulOp T (ops op))
    (h : TableInv False s) (hV : ValueInv T s.values)
    (hrun : EvddRun T ops (fun _ c => c.releases = false) s t) {e : EVDD}
    (he : s.Protects e) {w : Option (P × ℕ)} {τ : WTree (Option (P × ℕ))}
    (hedge : s.Edge s.values.read e w τ) : t.Edge t.values.read e w τ := by
  suffices hall : (TableInv False t ∧ ValueInv T t.values) ∧ t.Protects e ∧
      t.Edge t.values.read e w τ from hall.2.2
  induction hrun with
  | refl => exact ⟨⟨h, hV⟩, he, hedge⟩
  | tail _ hstep ih =>
    obtain ⟨⟨hi, hVi⟩, hp, hed⟩ := ih
    obtain ⟨E, c, r, hc, hr⟩ := hstep
    have hs := evddCall_spec hT hops hi hVi (fun hq => hq.elim) hr
    exact ⟨⟨hs.inv, hs.values⟩, evddCall_protects_edge hT hops hi hVi hc hr hp hed.1,
      evddCall_edge hT hops hi hVi hr hp hed⟩

/-- Callers that pass in edges with valid weights only. -/
def ValidWeights (s : EvddState P) (c : EvddCall P) : Prop :=
  ∀ e ∈ c.operands, s.values.Valid e.w

/-- With such callers no node and no cache entry ever holds a weight that is not valid. -/
theorem evddRun_weight (hT : LawfulNormalize T) (hops : ∀ op, LawfulOp T (ops op))
    (h : TableInv False s) (hV : ValueInv T s.values) (hw : WeightInv s)
    (hrun : EvddRun T ops ValidWeights s t) : WeightInv t := by
  suffices hall : (TableInv False t ∧ ValueInv T t.values) ∧ WeightInv t from hall.2
  induction hrun with
  | refl => exact ⟨⟨h, hV⟩, hw⟩
  | tail _ hstep ih =>
    obtain ⟨⟨hi, hVi⟩, hwi⟩ := ih
    obtain ⟨E, c, r, hc, hr⟩ := hstep
    have hs := evddCall_spec hT hops hi hVi (fun hq => hq.elim) hr
    exact ⟨⟨hs.inv, hs.values⟩, (hs.weight hwi hc).1⟩

/-- `evdd_value_gbc` collects exactly the garbage. -/
theorem evddValueGbc_collects (hT : LawfulNormalize T) (hops : ∀ op, LawfulOp T (ops op))
    {size maxsize cachesize : ℕ} (hsize : 2 ≤ size) (hcache : 0 < cachesize)
    (hrun : EvddRun T ops ValidWeights (evddInit size maxsize cachesize .empty) s) :
    (s.evddrefstack = [] →
      -- the ids that are freed
      (∀ id, evddValueLive s.values id = true →
        (evddValueLive (evddValueGbc T s).2.values id = false ↔
          id ≠ evddValueZero ∧ (s.values.evddValues id).refcou = 0 ∧
            ∀ n, (evddGbc s).live n = true →
              id ≠ ((evddGbc s).key n).wLow ∧ id ≠ ((evddGbc s).key n).wHigh)) ∧
      -- the ids that stay
      (∀ id, evddValueLive (evddValueGbc T s).2.values id = true →
        evddValueGet (evddValueGbc T s).2.values id = evddValueGet s.values id ∧
        evddValueTypeOf (evddValueGbc T s).2.values id = evddValueTypeOf s.values id) ∧
      -- the edges that are referenced, whatever is interned into the freed ids
      (∀ t, EvddRun T ops (fun _ c => c.releases = false) (evddValueGbc T s).2 t →
        ∀ e, s.Protects e → ∀ w τ, s.Edge s.values.read e w τ →
          t.Edge t.values.read e w τ) ∧
      -- the caches
      (∀ i, (evddValueGbc T s).2.evddApplycache.isValid i = false) ∧
      ∀ t, EvddRun T ops ValidWeights (evddValueGbc T s).2 t →
        (∀ i, t.evddApplycache.isValid i = true →
          t.values.Valid (t.evddApplycache.table i).resW) ∧
        ∀ E c e t', ValidWeights t c → evddCall T E ops t c = some (.edge e, t') →
          t'.values.Valid e.w) ∧
    ∀ s : EvddState P, s.evddrefstack ≠ [] → evddValueGbc T s = (.error .op, s.error .op) := by
  refine ⟨fun hst => ?_, fun s hst => evddValueGbc_busy hst⟩
  obtain ⟨hinit, -, hwinit⟩ := evddInit_inv (P := P) (q := False) hsize hcache maxsize .empty
  have htrue : EvddRun T ops (fun _ _ => True) (evddInit size maxsize cachesize .empty) s :=
    hrun.mono fun _ _ _ => trivial
  obtain ⟨h, hV, -⟩ := htrue.inv hT hops (fun hq => hq.elim) hinit (ValueInv.empty T)
  have hw := evddRun_weight hT hops hinit (ValueInv.empty T) hwinit hrun
  obtain ⟨-, hgbc⟩ := evddGbc_spec h
  have hc := evddValueGbc_spec h hV hst
  have hcol := hc.collected h
  have hcall : ∀ E, evddCall T E ops s .valueGbc =
      some (.collected (evddValueGbc T s).1, (evddValueGbc T s).2) := fun _ => rfl
  generalize evddValueGbc T s = r at hc hcol hcall ⊢
  have hsurv : ∀ id, s.Survives id ↔ 0 < (s.values.evddValues id).refcou ∨
      ∃ n, (evddGbc s).live n = true ∧
        (id = ((evddGbc s).key n).wLow ∨ id = ((evddGbc s).key n).wHigh) := by
    intro id
    refine or_congr_right (exists_congr fun n => ?_)
    rw [hgbc.live n]
    exact and_congr_right fun hn => by rw [hgbc.key n hn]
  refine ⟨fun id hid => ?_, fun id hid => ?_, fun t ht e he w τ hedge => ?_,
    hcol.cache, fun t ht => ?_⟩
  · have hsome := (evddValueLive_iff hV id).mp hid
    have hlive : evddValueLive r.2.values id = true ↔ s.Survives id := by
      rw [evddValueLive_iff hc.values]
      refine ⟨fun hp => ?_, fun hs => by rw [hc.kept id hsome hs]; exact hsome⟩
      by_contra hs
      rw [hc.freed id hs] at hp
      exact absurd hp Bool.false_ne_true
    have hne : id ≠ evddValueZero := Nat.pos_iff_ne_zero.mp (hV.row id hsome).1
    rw [← Bool.not_eq_true, hlive, hsurv]
    push Not
    exact ⟨fun hs => ⟨hne, by omega, hs.2⟩, fun hs => ⟨by omega, hs.2.2⟩⟩
  · have hp' := (evddValueLive_iff hc.values id).mp hid
    have hsome := hc.back id hp'
    have hs : s.Survives id := by
      by_contra hs
      rw [hc.freed id hs] at hp'
      exact absurd hp' Bool.false_ne_true
    have hrow := hc.kept id hsome hs
    obtain ⟨u, hu⟩ := Option.isSome_iff_exists.mp hsome
    have hread := hV.read hu
    rw [← hrow] at hu
    have hread' := hc.values.read hu
    rw [hread.2.2.1, hread.2.2.2, hread'.2.2.1, hread'.2.2.2, hrow]
    exact ⟨rfl, rfl⟩
  · have E : Policy P := .neverCollect (fun _ => true) fun _ _ => true
    have hp' := evddCall_protects_edge hT hops h hV (by rfl) (hcall E) he hedge.1
    exact evddRun_edge hT hops hc.inv hc.values ht hp'
      (evddCall_edge hT hops h hV (hcall E) he hedge)
  · have hwt := evddRun_weight hT hops hc.inv hc.values (hc.weight h hw) ht
    refine ⟨fun i hi => hwt.cache i hi _ (by simp), fun E c e t' hv hr => ?_⟩
    have htrue' : EvddRun T ops (fun _ _ => True) r.2 t := ht.mono fun _ _ _ => trivial
    obtain ⟨hit, hVt, -⟩ := htrue'.inv hT hops (fun hq => hq.elim) hc.inv hc.values
    exact ((evddCall_spec hT hops hit hVt (fun hq => hq.elim) hr).weight hwt hv).2 e rfl

/-- A value is interned and referenced, another one is interned only. -/
theorem ratSession_valueGbc : ∃ s : EvddState ℚ, evddValueLive s.values 2 = true ∧
    (evddValueLive (evddValueGbc (ratTypes .firstNonzero) s).2.values 2 = false ↔
      2 ≠ evddValueZero ∧ (s.values.evddValues 2).refcou = 0 ∧
        ∀ n, (evddGbc s).live n = true →
          2 ≠ ((evddGbc s).key n).wLow ∧ 2 ≠ ((evddGbc s).key n).wHigh) := by
  obtain ⟨s, hrun, hs⟩ : ∃ s, EvddRun (ratTypes .firstNonzero) (ratOps .firstNonzero)
      ValidWeights ratSession s ∧ (evddValueLive s.values 2 && s.evddrefstack = []) = true :=
    evddCalls_exists ratPolicy
      [.valueIntern (some 2) 0, .valueAddref 1, .valueIntern (some 3) 0]
      (fun s => evddValueLive s.values 2 && s.evddrefstack = [])
      (by simp [ValidWeights, EvddCall.operands]) (by decide +kernel)
  simp only [Bool.and_eq_true, decide_eq_true_eq] at hs
  have h := evddValueGbc_collects ratTypes_lawfulNormalize (ratOps_lawful .firstNonzero)
    (by decide) (by decide) hrun
  exact ⟨s, hs.1, (h.1 hs.2).1 2 hs.1⟩

end MoToBuddy.Evdd
