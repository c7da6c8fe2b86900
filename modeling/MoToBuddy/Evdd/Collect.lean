import MoToBuddy.Evdd.Frame

/-!
# References and the collection of values

`evdd_addref` and `evdd_delref` change counts only (`Recounted`). `evdd_value_gbc` first
runs `evdd_gbc`, so that the rows it marks are the weights of exactly the nodes that
survive; all other rows without references are freed (`evddValueGbc_spec`).
-/

namespace MoToBuddy.Evdd

open CountedLoop Chained

variable {P : Type*} [DecidableEq P] {T : ValueTypes P} {q : Prop} {s : EvddState P}
  {V : ValueTable P}

/-! ## Counts of values -/

/-- Every row keeps its payload and its type. -/
def ValueTable.Same (V V' : ValueTable P) : Prop :=
  ∀ i, (V'.evddValues i).payload = (V.evddValues i).payload ∧
    (V'.evddValues i).type = (V.evddValues i).type

omit [DecidableEq P] in
theorem ValueTable.Same.valid {V' : ValueTable P} (h : V.Same V') {id : ValueId}
    (hid : V.Valid id) : V'.Valid id :=
  hid.imp_right fun hp => by rw [(h id).1]; exact hp

theorem setRefcou_inv (hV : ValueInv T V) (id : ValueId) (f : ℕ → ℕ) :
    ValueInv T (setRefcou V id f) ∧ V.Same (setRefcou V id f) := by
  have hrow : ∀ i, ∃ c, (setRefcou V id f).evddValues i = { V.evddValues i with refcou := c } := by
    intro i
    by_cases hi : i = id
    · subst hi
      exact ⟨f (V.evddValues i).refcou, Function.update_self ..⟩
    · exact ⟨(V.evddValues i).refcou, Function.update_of_ne hi ..⟩
  have hpay : ∀ i, ((setRefcou V id f).evddValues i).payload = (V.evddValues i).payload := by
    intro i
    obtain ⟨c, hc⟩ := hrow i
    rw [hc]
  have htype : ∀ i, ((setRefcou V id f).evddValues i).type = (V.evddValues i).type := by
    intro i
    obtain ⟨c, hc⟩ := hrow i
    rw [hc]
  have hhash : ∀ i, ((setRefcou V id f).evddValues i).hash = (V.evddValues i).hash := by
    intro i
    obtain ⟨c, hc⟩ := hrow i
    rw [hc]
  refine ⟨⟨hV.fresh, hV.bounds, fun i hi => ?_, hV.free_nodup, fun i => ?_, ?_, fun i u hu => ?_,
    fun i => ?_, fun i j u v hi hj ht hl hc => ?_⟩, fun i => ⟨hpay i, htype i⟩⟩
  · rw [hpay] at hi
    exact hV.row i hi
  · rw [hpay]
    exact hV.free_mem i
  · refine hV.idx.congr rfl rfl rfl fun i hi => ⟨?_, hhash i, htype i⟩
    rw [Indexed, hpay, htype] at hi
    exact hi
  · rw [hpay] at hu
    rw [htype, hhash]
    exact hV.typed i u hu
  · obtain ⟨c, hc⟩ := hrow i
    rw [hc]
    exact hV.unmarked i
  · rw [hpay] at hi hj
    rw [htype] at hl hc
    rw [htype, htype] at ht
    exact hV.unique i j u v hi hj ht hl hc

/-- What a reference operation on a value does. -/
def Recounts (T : ValueTypes P) (f : ValueTable P → ValueId → ValueTable P) : Prop :=
  ∀ V, ValueInv T V → ∀ id, ValueInv T (f V id) ∧ V.Same (f V id)

theorem evddValueAddref_recounts : Recounts T (evddValueAddref (P := P)) := by
  intro V hV id
  rw [evddValueAddref]
  split
  · exact ⟨hV, fun _ => ⟨rfl, rfl⟩⟩
  split
  · exact setRefcou_inv hV id _
  · exact ⟨ValueTable.error_inv hV _, fun _ => ⟨rfl, rfl⟩⟩

theorem evddValueDelref_recounts : Recounts T (evddValueDelref (P := P)) := by
  intro V hV id
  rw [evddValueDelref]
  split
  · exact ⟨hV, fun _ => ⟨rfl, rfl⟩⟩
  split
  · exact setRefcou_inv hV id _
  · exact ⟨ValueTable.error_inv hV _, fun _ => ⟨rfl, rfl⟩⟩

omit [DecidableEq P] in
theorem evddValueAddref_le (V : ValueTable P) (id i : ValueId) :
    (V.evddValues i).refcou ≤ ((evddValueAddref V id).evddValues i).refcou := by
  rw [evddValueAddref]
  split
  · exact le_rfl
  split
  · simp only [setRefcou, ValueTable.setRow, Function.update_apply]
    split
    · rename_i hi
      subst hi
      exact Nat.le_succ _
    · exact le_rfl
  · exact le_rfl

/-! ## Counts of nodes -/

/-- A change of a node's count leaves everything else of the node table alone. -/
structure CountSpec (q : Prop) (s s' : EvddState P) : Prop where
  inv : TableInv q s'
  key : ∀ n, s'.key n = s.key n
  produced : s'.evddproduced = s.evddproduced
  refstack : s'.evddrefstack = s.evddrefstack
  applycache : s'.evddApplycache = s.evddApplycache

/-- What `evdd_addref` and `evdd_delref` leave alone. -/
structure Recounted (q : Prop) (T : ValueTypes P) (s s' : EvddState P) : Prop
    extends CountSpec q s s' where
  values : ValueInv T s.values → ValueInv T s'.values ∧ s.values.Same s'.values

omit [DecidableEq P] in
theorem GraphInv.of_key {s' : EvddState P} (hg : GraphInv s) (hkey : ∀ n, s'.key n = s.key n)
    (hprod : s'.evddproduced = s.evddproduced) (hstack : s'.evddrefstack = s.evddrefstack)
    (hcache : s'.evddApplycache = s.evddApplycache) : GraphInv s' := by
  have hlive : ∀ n, s'.live n = s.live n := fun n => EvddState.live_congr (hkey n)
  have hsucc : ∀ n, s'.succ n = s.succ n := fun n => EvddState.succ_congr (hkey n)
  have hnode : ∀ n, s.IsNode n → s'.IsNode n := fun n hn => by
    rw [EvddState.IsNode, hlive]
    exact hn
  refine ⟨fun n hn m hm => ?_, ?_, fun n hn => ?_, fun i hi => ?_⟩
  · rw [hlive] at hn
    rw [hsucc] at hm
    exact hnode m (hg.child n hn m hm)
  · obtain ⟨rank, hr0, hr⟩ := hg.rank
    refine ⟨rank, hr0, fun n hn => ?_⟩
    rw [hlive] at hn
    rw [hprod, hsucc]
    exact hr n hn
  · rw [hstack] at hn
    exact hnode n (hg.stack n hn)
  · rw [hcache] at hi ⊢
    exact fun n hn => hnode n (hg.cacheLive i hi n hn)

theorem Recounted.graph {s' : EvddState P} (h : Recounted q T s s') (hg : GraphInv s) :
    GraphInv s' := hg.of_key h.key h.produced h.refstack h.applycache

theorem Recounted.weight {s' : EvddState P} (h : Recounted q T s s')
    (hV : ValueInv T s.values) (hw : WeightInv s) : WeightInv s' := by
  have hsame := (h.values hV).2
  refine ⟨fun n hn => ?_, fun n hn => ?_, fun i hi w hwi => ?_⟩
  · rw [EvddState.live_congr (h.key n)] at hn
    rw [h.key]
    exact ⟨hsame.valid (hw.node n hn).1, hsame.valid (hw.node n hn).2⟩
  · rw [h.key] at hn ⊢
    exact hw.free n hn
  · rw [h.applycache] at hi hwi
    exact hsame.valid (hw.cache i hi w hwi)

omit [DecidableEq P] in
/-- Changing the count of a node keeps the invariant. -/
theorem TableInv.setRefcou (h : TableInv q s) {n c : ℕ} (hn : 0 < c → s.IsNode n) :
    TableInv q (s.setNode n { s.evddnodes n with refcou := c }) ∧
      ∀ m, (s.setNode n { s.evddnodes n with refcou := c }).key m = s.key m := by
  set s' := s.setNode n { s.evddnodes n with refcou := c } with hs'
  have hnodes : ∀ m, s'.evddnodes m =
      if m = n then { s.evddnodes n with refcou := c } else s.evddnodes m := fun m =>
    Function.update_apply ..
  have hkey : ∀ m, s'.key m = s.key m := by
    intro m
    rw [EvddState.key, hnodes]
    split <;> rename_i hm
    · rw [hm]
      rfl
    · rfl
  have hlive : s'.live = s.live := funext fun m => EvddState.live_congr (hkey m)
  have hbucket : s'.bucket = s.bucket := funext fun m => EvddState.bucket_congr (hkey m) rfl
  have hlinks : s'.links = s.links := links_setNode s rfl rfl
  have hmark : ∀ m, (s'.evddnodes m).mark = (s.evddnodes m).mark := by
    intro m
    rw [hnodes]
    split <;> rename_i hm
    · rw [hm]
    · rfl
  refine ⟨?_, hkey⟩
  exact
    { running := h.running
      size := h.size
      terminal := by rw [hkey]; exact h.terminal
      beyond := by rw [hlive]; exact h.beyond
      refcou := fun m hm => by
        rw [hnodes] at hm
        rw [hlive]
        split at hm
        · rename_i hmn
          rw [hmn]
          exact hn hm
        · exact h.refcou m hm
      mark := fun m => (hmark m).trans (h.mark m)
      level := by simp only [hkey]; exact h.level
      table := by rw [hlive, hbucket, hlinks]; exact h.table
      unique := by simp only [hlive, hkey]; exact h.unique
      cacheSize := h.cacheSize
      cacheGen := h.cacheGen }

omit [DecidableEq P] in
theorem evddIncref_spec (h : TableInv q s) {n : ℕ} (hn : s.IsNode n) :
    CountSpec q s (evddIncref s n) ∧ (evddIncref s n).values = s.values := by
  rw [evddIncref]
  split
  · obtain ⟨hi, hk⟩ := h.setRefcou (c := (s.evddnodes n).refcou + 1) fun _ => hn
    exact ⟨⟨hi, hk, rfl, rfl, rfl⟩, rfl⟩
  · exact ⟨⟨h, fun _ => rfl, rfl, rfl, rfl⟩, rfl⟩

omit [DecidableEq P] in
theorem evddIncref_le (s : EvddState P) (n m : ℕ) :
    (s.evddnodes m).refcou ≤ ((evddIncref s n).evddnodes m).refcou := by
  rw [evddIncref]
  split
  · simp only [EvddState.setNode, Function.update_apply]
    split
    · rename_i hm
      subst hm
      exact Nat.le_succ _
    · exact le_rfl
  · exact le_rfl

omit [DecidableEq P] in
theorem evddDecref_spec (h : TableInv q s) {n : ℕ} (hn : s.IsNode n) :
    CountSpec q s (evddDecref s n) ∧ (evddDecref s n).values = s.values := by
  rw [evddDecref]
  split
  · obtain ⟨hi, hk⟩ := h.setRefcou (c := (s.evddnodes n).refcou - 1) fun _ => hn
    exact ⟨⟨hi, hk, rfl, rfl, rfl⟩, rfl⟩
  · exact ⟨⟨h, fun _ => rfl, rfl, rfl, rfl⟩, rfl⟩

theorem evddChangeref_spec (h : TableInv q s) {count : EvddState P → ℕ → EvddState P}
    {value : ValueTable P → ValueId → ValueTable P} (root : EVDD)
    (hcount : s.IsNode root.node →
      CountSpec q s (count s root.node) ∧ (count s root.node).values = s.values)
    (hvalue : Recounts T value) :
    Recounted q T s (evddChangeref count value s root).2 := by
  have herr : ∀ e, Recounted q T s (s.error e) := fun e =>
    ⟨⟨h.error e, fun _ => rfl, rfl, rfl, rfl⟩, fun hV => ⟨hV, fun _ => ⟨rfl, rfl⟩⟩⟩
  rw [evddChangeref]
  split
  · exact ⟨⟨h.setValues _, fun _ => rfl, rfl, rfl, rfl⟩, fun hV => hvalue _ hV _⟩
  split
  · exact herr _
  split
  · exact herr _
  · rename_i h0 _ hfree
    have hn : s.IsNode root.node := by
      by_cases hz : root.node = 0
      · exact Or.inl hz
      · rw [isFree_eq hz] at hfree
        exact Or.inr (by simpa using hfree)
    obtain ⟨hc, hval⟩ := hcount hn
    refine ⟨⟨hc.inv.setValues _, hc.key, hc.produced, hc.refstack, hc.applycache⟩, fun hV => ?_⟩
    rw [← hval] at hV ⊢
    exact hvalue _ hV _

theorem evddAddref_spec (h : TableInv q s) (root : EVDD) :
    Recounted q T s (evddAddref s root).2 :=
  evddChangeref_spec h root (evddIncref_spec h) evddValueAddref_recounts

omit [DecidableEq P] in
/-- `evdd_addref` drops no reference. -/
theorem evddAddref_le (s : EvddState P) (root : EVDD) :
    (∀ n, (s.evddnodes n).refcou ≤ ((evddAddref s root).2.evddnodes n).refcou) ∧
      ∀ i, (s.values.evddValues i).refcou ≤
        ((evddAddref s root).2.values.evddValues i).refcou := by
  rw [evddAddref, evddChangeref]
  split
  · exact ⟨fun _ => le_rfl, evddValueAddref_le s.values root.w⟩
  split
  · exact ⟨fun _ => le_rfl, fun _ => le_rfl⟩
  split
  · exact ⟨fun _ => le_rfl, fun _ => le_rfl⟩
  · have hv : (evddIncref s root.node).values = s.values := by
      rw [evddIncref]
      split <;> rfl
    have hle := evddValueAddref_le (evddIncref s root.node).values root.w
    refine ⟨evddIncref_le s root.node, fun i => ?_⟩
    have hi := hle i
    rw [hv] at hi
    simp only [hv]
    exact hi

theorem evddDelref_spec (h : TableInv q s) (root : EVDD) :
    Recounted q T s (evddDelref s root).2 :=
  evddChangeref_spec h root (evddDecref_spec h) evddValueDelref_recounts

/-! ## `evdd_value_gbc` -/

/-- The rows of `V` with a mark on every live one in `M`. -/
structure ValueMarked (V : ValueTable P) (M : ℕ → Prop) (W : ValueTable P) : Prop where
  row : ∀ i, W.evddValues i = { V.evddValues i with mark := (W.evddValues i).mark }
  mark : ∀ i, (W.evddValues i).mark = true ↔ M i ∧ (V.evddValues i).payload.isSome = true
  rest : W.evddmaxValueSize = V.evddmaxValueSize ∧
    W.evddLastValueIndex = V.evddLastValueIndex ∧ W.freelist = V.freelist ∧
    W.idx = V.idx ∧ W.idxCap = V.idxCap ∧ W.idxCnt = V.idxCnt
  errors : W.errors = V.errors

theorem evddValueMark_spec (hV : ValueInv T V) {M : ℕ → Prop} {W : ValueTable P}
    (h : ValueMarked V M W) (id : ValueId) :
    ValueMarked V (fun i => M i ∨ i = id) (evddValueMark W id) := by
  have hpay : ∀ i, (W.evddValues i).payload = (V.evddValues i).payload := fun i => by rw [h.row i]
  have hlive : evddValueLive W id = true ↔ (V.evddValues id).payload.isSome = true := by
    rw [← evddValueLive_iff hV id, evddValueLive, evddValueLive, h.rest.1, h.rest.2.1, hpay]
  rw [evddValueMark]
  split
  · rename_i hl
    rw [hlive] at hl
    have hrow : ∀ i, (W.setRow id { W.evddValues id with mark := true }).evddValues i =
        if i = id then { W.evddValues id with mark := true } else W.evddValues i := fun i =>
      Function.update_apply ..
    refine ⟨fun i => ?_, fun i => ?_, h.rest, h.errors⟩
    · rw [hrow]
      split
      · rename_i hi
        rw [hi, h.row id]
      · exact h.row i
    · rw [hrow]
      split
      · rename_i hi
        simp [hi, hl]
      · rename_i hi
        rw [h.mark i]
        simp [hi]
  · rename_i hl
    rw [hlive] at hl
    refine ⟨h.row, fun i => ?_, h.rest, h.errors⟩
    rw [h.mark i]
    constructor
    · exact fun hi => ⟨Or.inl hi.1, hi.2⟩
    · rintro ⟨hi | rfl, hp⟩
      · exact ⟨hi, hp⟩
      · exact absurd hp hl

/-- `id` is a weight of a node in slots `1` to `k - 1`. -/
def WeightBelow (s : EvddState P) (k : ℕ) (id : ValueId) : Prop :=
  ∃ n, n < k ∧ s.live n = true ∧ (id = (s.key n).wLow ∨ id = (s.key n).wHigh)

/-- The marking loop of `evdd_value_gbc` marks the weights of the nodes. -/
theorem valueMark_spec (hV : ValueInv T s.values) (hsize : 1 ≤ s.evddnodesize) :
    ∃ W, forUp 1 (s.evddnodesize - 1) valueMarkStep s = { s with values := W } ∧
      ValueMarked s.values (WeightBelow s s.evddnodesize) W := by
  have hloop := forUp_induct (a := 1) (k := s.evddnodesize - 1) (f := valueMarkStep (P := P))
    (s := s) (fun k t => ∃ W, t = { s with values := W } ∧
      ValueMarked s.values (WeightBelow s k) W) ?_ ?_
  · rwa [Nat.add_sub_cancel' hsize] at hloop
  · refine ⟨s.values, rfl, fun _ => rfl, fun i => ?_, ⟨rfl, rfl, rfl, rfl, rfl, rfl⟩, rfl⟩
    rw [hV.unmarked]
    constructor
    · exact fun h => absurd h Bool.false_ne_true
    · rintro ⟨⟨n, hn, hl, -⟩, -⟩
      exact absurd (EvddState.live_iff.mp hl).1 (by omega)
  · rintro n t h1 - ⟨W, rfl, hW⟩
    have hbelow : ∀ i, WeightBelow s (n + 1) i ↔ WeightBelow s n i ∨
        s.live n = true ∧ (i = (s.key n).wLow ∨ i = (s.key n).wHigh) := by
      intro i
      constructor
      · rintro ⟨m, hm, hl, hi⟩
        by_cases hmn : m = n
        · subst hmn
          exact Or.inr ⟨hl, hi⟩
        · exact Or.inl ⟨m, by omega, hl, hi⟩
      · rintro (⟨m, hm, hl, hi⟩ | ⟨hl, hi⟩)
        · exact ⟨m, by omega, hl, hi⟩
        · exact ⟨n, by omega, hl, hi⟩
    have hfree : ({ s with values := W } : EvddState P).isFree n = !s.live n :=
      isFree_eq (s := { s with values := W }) (by omega)
    rw [valueMarkStep, hfree]
    cases hl : s.live n with
    | false =>
      refine ⟨W, rfl, hW.row, fun i => ?_, hW.rest, hW.errors⟩
      rw [hW.mark i, hbelow, hl]
      simp
    | true =>
      have hm := evddValueMark_spec hV (evddValueMark_spec hV hW (s.key n).wLow) (s.key n).wHigh
      refine ⟨_, rfl, hm.row, fun i => ?_, hm.rest, hm.errors⟩
      refine (hm.mark i).trans ?_
      rw [hbelow, hl, or_assoc]
      simp

/-- A row that a collection of values must keep. -/
def EvddState.Survives (s : EvddState P) (id : ValueId) : Prop :=
  0 < (s.values.evddValues id).refcou ∨
    ∃ n, s.Held n ∧ (id = (s.key n).wLow ∨ id = (s.key n).wHigh)

/-- What `evdd_value_gbc` does on an empty reference stack. -/
structure ValueCollected (q : Prop) (T : ValueTypes P) (s s' : EvddState P) : Prop where
  inv : TableInv q s'
  state : s' = { evddGbc s with values := s'.values }
  values : ValueInv T s'.values
  kept : ∀ id, (s.values.evddValues id).payload.isSome = true → s.Survives id →
    s'.values.evddValues id = s.values.evddValues id
  freed : ∀ id, ¬ s.Survives id → (s'.values.evddValues id).payload = none
  back : ∀ id, (s'.values.evddValues id).payload.isSome = true →
    (s.values.evddValues id).payload.isSome = true

theorem evddValueGbc_spec (h : TableInv q s) (hV : ValueInv T s.values)
    (hstack : s.evddrefstack = []) : ValueCollected q T s (evddValueGbc T s).2 := by
  obtain ⟨hi, hc⟩ := evddGbc_spec h
  have hval := hc.rest.values
  have hV' : ValueInv T (evddGbc s).values := hval ▸ hV
  obtain ⟨W, hW, hm⟩ := valueMark_spec hV' (by have := hi.size; omega)
  have heq : (evddValueGbc T s).2 =
      { evddGbc s with values := (evddValueSweep T W).2 } := by
    have hlen : ¬ s.evddrefstack.length > 0 := by simp [hstack]
    rw [evddValueGbc, if_neg hlen, if_pos h.running.1]
    simp only [hW]
    rfl
  obtain ⟨hinv, hrow, -⟩ := evddValueSweep_spec hV' hm.row
    (fun i hi => by rw [hm.row i]; exact ((hm.mark i).mp hi).2) hm.rest
  rw [hval] at hm
  have hsurv : ∀ id, (s.values.evddValues id).payload.isSome = true →
      ((W.evddValues id).mark = true ∨ 0 < (W.evddValues id).refcou ↔ s.Survives id) := by
    intro id hp
    have href : (W.evddValues id).refcou = (s.values.evddValues id).refcou := by rw [hm.row id]
    rw [hm.mark id, href, EvddState.Survives, or_comm]
    refine or_congr_right ⟨?_, ?_⟩
    · rintro ⟨⟨n, -, hl, hn⟩, -⟩
      have hheld := (hc.live n).mp hl
      rw [hc.key n hheld] at hn
      exact ⟨n, hheld, hn⟩
    · rintro ⟨n, hheld, hn⟩
      have hl := (hc.live n).mpr hheld
      rw [← hc.key n hheld] at hn
      exact ⟨⟨n, hi.live_lt hl, hl, hn⟩, hp⟩
  have hpay : ∀ id, (W.evddValues id).payload = (s.values.evddValues id).payload := fun id => by
    rw [hm.row id]
  rw [heq]
  refine ⟨hi.setValues _, rfl, hinv, fun id hp hs => ?_, fun id hs => ?_, fun id hp => ?_⟩
  · have hk := (hsurv id hp).mpr hs
    have hsome : (sweptRow (W.evddValues id)).payload.isSome = true := by
      rw [sweptRow_payload, if_pos hk, hpay]
      exact hp
    refine (hrow id).trans ((sweptRow_kept hsome).trans ?_)
    rw [hm.row id, ← hV.unmarked id]
  · refine (congrArg EvddValueRow.payload (hrow id)).trans ?_
    rw [sweptRow_payload]
    split
    · rename_i hk
      rw [hpay]
      by_contra hne
      exact hs ((hsurv id (Option.isSome_iff_ne_none.mpr hne)).mp hk)
    · rfl
  · replace hp : ((evddValueSweep T W).2.evddValues id).payload.isSome = true := hp
    rw [hrow id, sweptRow_payload] at hp
    split at hp
    · rwa [hpay] at hp
    · simp at hp

omit [DecidableEq P] in
/-- On a non-empty reference stack `evdd_value_gbc` only reports the error. -/
theorem evddValueGbc_busy (hstack : s.evddrefstack ≠ []) :
    evddValueGbc T s = (.error .op, s.error .op) :=
  if_pos (List.length_pos_iff.mpr hstack)

section ValueCollected

variable {s' : EvddState P}

theorem ValueCollected.collected (h : ValueCollected q T s s') (hinv : TableInv q s) :
    Collected s { s' with values := s.values } := by
  obtain ⟨-, hc⟩ := evddGbc_spec hinv
  have hstate : { s' with values := s.values } = evddGbc s := by
    rw [h.state, ← hc.rest.values]
  rw [hstate]
  exact hc

theorem ValueCollected.graph (h : ValueCollected q T s s') (hinv : TableInv q s)
    (hg : GraphInv s) : GraphInv s' := by
  have hg' := hg.collected (h.collected hinv)
  exact ⟨hg'.child, hg'.rank, hg'.stack, hg'.cacheLive⟩

/-- After the collection the weights of the nodes are valid: they were marked. -/
theorem ValueCollected.weight (h : ValueCollected q T s s') (hinv : TableInv q s)
    (hw : WeightInv s) : WeightInv s' := by
  have hc := h.collected hinv
  have hvalid : ∀ n, s.Held n → ∀ id, id = (s.key n).wLow ∨ id = (s.key n).wHigh →
      s.values.Valid id → s'.values.Valid id := by
    rintro n hn id hid (h0 | hp)
    · exact Or.inl h0
    · right
      rw [h.kept id hp (Or.inr ⟨n, hn, hid⟩)]
      exact hp
  have hkey : ∀ n, ({ s' with values := s.values } : EvddState P).key n = s'.key n :=
    fun _ => rfl
  refine ⟨fun n hn => ?_, fun n hn => ?_, fun i hi => ?_⟩
  · have hheld := (hc.live n).mp hn
    have hv := hw.node n hheld.live
    rw [← hkey, hc.key n hheld]
    exact ⟨hvalid n hheld _ (Or.inl rfl) hv.1, hvalid n hheld _ (Or.inr rfl) hv.2⟩
  · rw [← hkey] at hn ⊢
    rcases hc.other n with hk | hk <;> rw [hk] at hn ⊢
    · exact hw.free n hn
    · exact ⟨rfl, rfl⟩
  · exact absurd ((hc.cache i).symm.trans hi) Bool.false_ne_true

end ValueCollected

end MoToBuddy.Evdd
