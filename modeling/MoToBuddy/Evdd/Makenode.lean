import MoToBuddy.Evdd.Table
import MoToBuddy.Evdd.Op

/-!
# `evdd_makenode_raw` and `evdd_makenode`

`Keeps` is what every operation guarantees to its caller: held nodes stay held and keep
their keys. `evddMakenodeRaw_spec` and `evddMakenode_spec` give, in addition, the cases of
the two constructors: skip-reduction, a zero edge, a node with the given key, or a report of
exhaustion.
-/

namespace MoToBuddy.Evdd

open CountedLoop Chained Marking

variable {P : Type*} {q : Prop} {s s' s'' : EvddState P}

/-- How often exhaustion was reported. -/
def EvddState.nodenums (s : EvddState P) : ℕ := s.errors.count .nodenum

/-- What operations leave alone: held nodes, references and the reports made so far. -/
structure Keeps (s s' : EvddState P) : Prop where
  produced : s.evddproduced ≤ s'.evddproduced
  nodenums : s.nodenums ≤ s'.nodenums
  held : ∀ n, s.Held n → s'.Held n
  key : ∀ n, s.Held n → s'.key n = s.key n
  refcou : ∀ n, (s'.evddnodes n).refcou = (s.evddnodes n).refcou

/-- The cache was flushed, or it is the same and no node was freed. -/
def CacheStable (s s' : EvddState P) : Prop :=
  (∀ i, s'.evddApplycache.isValid i = false) ∨
    s'.evddApplycache = s.evddApplycache ∧
      ∀ n, s.live n = true → s'.live n = true ∧ s'.key n = s.key n

/-- A node that survives a collection, should one run now. -/
def Safe (E : Policy P) (s : EvddState P) (n : ℕ) : Prop :=
  s.IsNode n ∧ (E.collect s = true → n = 0 ∨ s.Held n)

theorem Keeps.refl (s : EvddState P) : Keeps s s :=
  ⟨le_rfl, le_rfl, fun _ h => h, fun _ _ => rfl, fun _ => rfl⟩

theorem Keeps.trans (h : Keeps s s') (h' : Keeps s' s'') : Keeps s s'' :=
  ⟨h.produced.trans h'.produced, h.nodenums.trans h'.nodenums,
    fun n hn => h'.held n (h.held n hn),
    fun n hn => (h'.key n (h.held n hn)).trans (h.key n hn),
    fun n => (h'.refcou n).trans (h.refcou n)⟩

theorem CacheStable.refl (s : EvddState P) : CacheStable s s :=
  Or.inr ⟨rfl, fun _ h => ⟨h, rfl⟩⟩

theorem CacheStable.trans (h : CacheStable s s') (h' : CacheStable s' s'') :
    CacheStable s s'' := by
  rcases h' with h' | ⟨hc', hk'⟩
  · exact Or.inl h'
  · rcases h with h | ⟨hc, hk⟩
    · left
      intro i
      rw [hc']
      exact h i
    · right
      refine ⟨hc'.trans hc, fun n hn => ?_⟩
      obtain ⟨hl, hkey⟩ := hk n hn
      exact ⟨(hk' n hl).1, ((hk' n hl).2).trans hkey⟩

theorem Keeps.isNode (h : Keeps s s') {n : ℕ} (hn : n = 0 ∨ s.Held n) : s'.IsNode n :=
  hn.imp id fun hh => (h.held n hh).live

/-- Two states that differ in their stacks, values, caches and reports only. -/
theorem EvddState.held_mono (hnodes : s'.evddnodes = s.evddnodes)
    (hstack : s.evddrefstack ⊆ s'.evddrefstack) {n : ℕ} (h : s.Held n) : s'.Held n := by
  have hkey : ∀ n, s'.key n = s.key n := fun n => by rw [EvddState.key, hnodes]; rfl
  refine EvddState.Held.congr (fun n _ => hkey n) (fun r hr hl => ⟨r, ?_, .refl ?_⟩) h
  · rcases hr with hr | hr
    · left
      rw [hnodes]
      exact hr
    · exact Or.inr (hstack hr)
  · rw [EvddState.live_congr (hkey r)]
    exact hl

/-- A stack with the entries that were there before keeps the protection they gave. -/
theorem Keeps.restack {t : EvddState P} (h : Keeps s s') (hnodes : t.evddnodes = s'.evddnodes)
    (hstack : s.evddrefstack ⊆ t.evddrefstack) (hprod : t.evddproduced = s'.evddproduced)
    (herr : t.errors = s'.errors) : Keeps s t := by
  have hkey : ∀ n, t.key n = s'.key n := fun n => by rw [EvddState.key, hnodes]; rfl
  have hkey' : ∀ n, s.Held n → t.key n = s.key n := fun n hn => (hkey n).trans (h.key n hn)
  refine ⟨by rw [hprod]; exact h.produced, ?_, fun n hn => ?_, hkey', fun n => ?_⟩
  · have := h.nodenums
    rwa [EvddState.nodenums, EvddState.nodenums, ← herr] at this
  · refine EvddState.Held.congr hkey' (fun r hr hl => ⟨r, ?_, .refl ?_⟩) hn
    · rcases hr with hr | hr
      · left
        rw [hnodes, h.refcou]
        exact hr
      · exact Or.inr (hstack hr)
    · rw [EvddState.live_congr (hkey' r ⟨r, hr, .refl hl⟩)]
      exact hl
  · rw [hnodes]
    exact h.refcou n

theorem Collected.keeps (h : Collected s s') : Keeps s s' := by
  refine ⟨h.rest.produced.ge, ?_, fun n hn => ?_, h.key, h.refcou⟩
  · rw [EvddState.nodenums, EvddState.nodenums, h.rest.errors]
  · refine EvddState.Held.congr h.key (fun r hr hl => ⟨r, ?_, .refl ?_⟩) hn
    · rcases hr with hr | hr
      · left
        rw [h.refcou]
        exact hr
      · right
        rw [h.rest.refstack]
        exact hr
    · exact (h.live r).mpr ⟨r, hr, .refl hl⟩

theorem Grown.nodenums (h : Grown s s') : s'.nodenums = s.nodenums := by
  rcases h.errors with he | he <;> rw [EvddState.nodenums, EvddState.nodenums, he]
  simp

theorem Grown.keeps (h : Grown s s') : Keeps s s' := by
  refine ⟨h.produced.ge, h.nodenums.ge, fun n hn => ?_, fun n hn => h.key n hn.live, h.refcou⟩
  refine EvddState.Held.congr (fun n hn => h.key n hn.live) (fun r hr hl => ⟨r, ?_, .refl ?_⟩) hn
  · rcases hr with hr | hr
    · left
      rw [h.refcou]
      exact hr
    · right
      rw [h.refstack]
      exact hr
  · rw [h.live]
    exact hl

/-! ## Making room -/

/-- What `makeRoom` may do: nothing that its caller sees but free or add slots. -/
structure Roomed (E : Policy P) (s s' : EvddState P) : Prop where
  keeps : Keeps s s'
  cache : CacheStable s s'
  produced : s'.evddproduced = s.evddproduced
  refstack : s'.evddrefstack = s.evddrefstack
  values : s'.values = s.values
  nodenums : s'.nodenums = s.nodenums
  node : ∀ n, Safe E s n → s'.IsNode n
  graph : GraphInv s → GraphInv s'
  back : ∀ n, s'.live n = true → s.live n = true ∧ s'.key n = s.key n
  other : ∀ n, s'.key n = s.key n ∨ s'.key n = .free

theorem Collected.roomed {E : Policy P} (h : Collected s s') (hE : E.collect s = true) :
    Roomed E s s' where
  keeps := h.keeps
  cache := Or.inl h.cache
  produced := h.rest.produced
  refstack := h.rest.refstack
  values := h.rest.values
  nodenums := by rw [EvddState.nodenums, EvddState.nodenums, h.rest.errors]
  node n hn := (hn.2 hE).imp id fun hh => (h.live n).mpr hh
  graph hg := hg.collected h
  back n hn := ⟨((h.live n).mp hn).live, h.key n ((h.live n).mp hn)⟩
  other := h.other

theorem makeRoom_spec (E : Policy P) (h : TableInv q s) :
    TableInv q (makeRoom E s) ∧ Roomed E s (makeRoom E s) := by
  rw [makeRoom]
  set s₁ := if E.collect s then evddGbc s else s with hs₁
  have h₁ : TableInv q s₁ ∧ Roomed E s s₁ := by
    rw [hs₁]
    split
    · rename_i hE
      obtain ⟨hi, hc⟩ := evddGbc_spec h
      exact ⟨hi, hc.roomed hE⟩
    · exact ⟨h, ⟨.refl s, .refl s, rfl, rfl, rfl, rfl, fun n hn => hn.1, id,
        fun _ h => ⟨h, rfl⟩, fun _ => Or.inl rfl⟩⟩
  obtain ⟨hi, hr⟩ := h₁
  change TableInv q (if E.grow s₁ then evddNoderesize E s₁ else s₁) ∧
    Roomed E s (if E.grow s₁ then evddNoderesize E s₁ else s₁)
  split
  · obtain ⟨hi', hg⟩ := evddNoderesize_spec E hi
    refine ⟨hi', ?_⟩
    exact
      { keeps := hr.keeps.trans hg.keeps
        cache := hr.cache.trans
          (Or.inr ⟨hg.applycache, fun n hn => ⟨(hg.live n).trans hn, hg.key n hn⟩⟩)
        produced := hg.produced.trans hr.produced
        refstack := hg.refstack.trans hr.refstack
        values := hg.values.trans hr.values
        nodenums := hg.nodenums.trans hr.nodenums
        node := fun n hn => (hr.node n hn).imp id fun hl => (hg.live n).trans hl
        graph := fun hgr => (hr.graph hgr).grown hg
        back := fun n hn => by
          rw [hg.live] at hn
          exact ⟨(hr.back n hn).1, (hg.key n hn).trans (hr.back n hn).2⟩
        other := fun n => by
          rcases hg.other n with h' | h'
          · rw [h']
            exact hr.other n
          · exact Or.inr h' }
  · exact ⟨hi, hr⟩

/-! ## Inserting a node -/

/-- The key of the node that `evdd_makenode_raw` looks for. -/
def rawKey (level : ℕ) (low high : EVDD) : EvddKey :=
  ⟨some low.node, high.node, low.w, high.w, level % 2 ^ 21⟩

/-- What `evddInsert` does: one free slot becomes a node with the given key. -/
structure Inserted (s : EvddState P) (key : EvddKey) (r : ℕ × EvddState P) : Prop where
  ne_zero : r.1 ≠ 0
  fresh : s.live r.1 = false
  key : r.2.key r.1 = key
  other : ∀ n, n ≠ r.1 → r.2.key n = s.key n
  refcou : ∀ n, (r.2.evddnodes n).refcou = (s.evddnodes n).refcou
  produced : r.2.evddproduced = s.evddproduced + 1
  refstack : r.2.evddrefstack = s.evddrefstack
  applycache : r.2.evddApplycache = s.evddApplycache
  values : r.2.values = s.values
  errors : r.2.errors = s.errors

section Inserted

variable {key : EvddKey} {r : ℕ × EvddState P}

theorem Inserted.ne_of_live (h : Inserted s key r) {n : ℕ} (hn : s.live n = true) :
    n ≠ r.1 := fun he => by
  rw [he, h.fresh] at hn
  exact Bool.false_ne_true hn

theorem Inserted.live_iff (h : Inserted s key r) (hlow : key.low.isSome) (n : ℕ) :
    r.2.live n = true ↔ s.live n = true ∨ n = r.1 := by
  by_cases hn : n = r.1
  · subst hn
    have : r.2.live r.1 = true := by
      rw [EvddState.live, h.key, hlow]
      simp [h.ne_zero]
    simp [this]
  · rw [EvddState.live_congr (h.other n hn)]
    simp [hn]

theorem Inserted.keeps (h : Inserted s key r) : Keeps s r.2 := by
  have hkey : ∀ n, s.Held n → r.2.key n = s.key n := fun n hn =>
    h.other n (h.ne_of_live hn.live)
  refine ⟨by rw [h.produced]; omega, ?_, fun n hn => ?_, hkey, h.refcou⟩
  · rw [EvddState.nodenums, EvddState.nodenums, h.errors]
  · refine EvddState.Held.congr hkey (fun r' hr hl => ⟨r', ?_, .refl ?_⟩) hn
    · rcases hr with hr | hr
      · left
        rw [h.refcou]
        exact hr
      · right
        rw [h.refstack]
        exact hr
    · rw [EvddState.live_congr (h.other r' (h.ne_of_live hl))]
      exact hl

theorem Inserted.cacheStable (h : Inserted s key r) : CacheStable s r.2 :=
  Or.inr ⟨h.applycache, fun n hn =>
    have hk := h.other n (h.ne_of_live hn)
    ⟨(EvddState.live_congr hk).trans hn, hk⟩⟩

theorem Inserted.isNode (h : Inserted s key r) {n : ℕ} (hn : s.IsNode n) : r.2.IsNode n :=
  hn.imp id fun hl => by
    rw [EvddState.live_congr (h.other n (h.ne_of_live hl))]
    exact hl

theorem Inserted.graph (h : Inserted s key r) (hg : GraphInv s) {low : ℕ}
    (hlow : key.low = some low) (hl : s.IsNode low) (hh : s.IsNode key.high) :
    GraphInv r.2 := by
  have hsome : key.low.isSome := by rw [hlow]; rfl
  have hsucc : r.2.succ r.1 = [low, key.high] := by
    rw [EvddState.succ, h.key, hlow]
  have hsucc' : ∀ n, s.live n = true → r.2.succ n = s.succ n := fun n hn =>
    EvddState.succ_congr (h.other n (h.ne_of_live hn))
  have hchild : ∀ m ∈ [low, key.high], s.IsNode m := by
    intro m hm
    rcases List.mem_pair.mp hm with rfl | rfl
    · exact hl
    · exact hh
  refine ⟨fun n hn m hm => ?_, ?_, fun n hn => ?_, fun i hi n hn => ?_⟩
  · rcases (h.live_iff hsome n).mp hn with hn | rfl
    · rw [hsucc' n hn] at hm
      exact h.isNode (hg.child n hn m hm)
    · rw [hsucc] at hm
      exact h.isNode (hchild m hm)
  · obtain ⟨rank, hr0, hr⟩ := hg.rank
    -- the nodes that were there before keep their ranks
    have hold : ∀ m, s.IsNode m →
        Function.update rank r.1 (s.evddproduced + 1) m = rank m ∧ rank m ≤ s.evddproduced := by
      rintro m (rfl | hm)
      · exact ⟨Function.update_of_ne h.ne_zero.symm _ _, by omega⟩
      · exact ⟨Function.update_of_ne (h.ne_of_live hm) _ _, (hr m hm).1⟩
    refine ⟨Function.update rank r.1 (s.evddproduced + 1), (hold 0 (Or.inl rfl)).1.trans hr0,
      fun n hn => ?_⟩
    rw [h.produced]
    rcases (h.live_iff hsome n).mp hn with hn | rfl
    · rw [(hold n (Or.inr hn)).1, hsucc' n hn]
      refine ⟨by have := (hr n hn).1; omega, fun m hm => ?_⟩
      rw [(hold m (hg.child n hn m hm)).1]
      exact (hr n hn).2 m hm
    · rw [Function.update_self, hsucc]
      refine ⟨le_rfl, fun m hm => ?_⟩
      rw [(hold m (hchild m hm)).1]
      exact Nat.lt_succ_of_le (hold m (hchild m hm)).2
  · rw [h.refstack] at hn
    exact h.isNode (hg.stack n hn)
  · rw [h.applycache] at hi hn
    exact h.isNode (hg.cacheLive i hi n hn)

end Inserted

/-- Turn the first free slot into a node with the given body, in bucket `b`. -/
def EvddState.fill (s : EvddState P) (node : EvddNode) (b : ℕ) : EvddState P :=
  ({ s with
    evddfreepos := (s.evddnodes s.evddfreepos).next
    evddfreenum := s.evddfreenum - 1
    evddproduced := s.evddproduced + 1 }.setNode s.evddfreepos
      { node with
        hash := (s.evddnodes s.evddfreepos).hash
        next := (s.evddnodes s.evddfreepos).next }).chainIn s.evddfreepos b

theorem evddInsert_eq (s : EvddState P) (level : ℕ) (low high : EVDD) :
    evddInsert s level low high = (s.evddfreepos, s.fill
      ⟨some low.node, high.node, low.w, high.w, 0, level % 2 ^ 21, false, 0, 0⟩
      (evddNodehash s.evddnodesize level low.node high.node low.w high.w)) := rfl

theorem fill_body (s : EvddState P) {node : EvddNode} (hnode : node.body = node) (b m : ℕ) :
    ((s.fill node b).evddnodes m).body =
      if m = s.evddfreepos then node else (s.evddnodes m).body := by
  rw [EvddState.fill, body_chainIn]
  simp only [EvddState.setNode, Function.update_apply]
  split
  · exact hnode
  · rfl

theorem fill_links (s : EvddState P) (node : EvddNode) (b : ℕ) :
    (s.fill node b).links = s.links.take.insert b s.evddfreepos := by
  rw [EvddState.fill, links_chainIn]
  congr 1
  exact links_setNode _ rfl rfl

/-- Filling a slot keeps the invariant if the node is put into the bucket of its key. -/
theorem fill_spec (h : TableInv q s) (hfree : s.evddfreepos ≠ 0) {node : EvddNode} {b : ℕ}
    (hnode : node.body = node) (hlow : node.low.isSome) (href : node.refcou = 0)
    (hmark : node.mark = false) (hlevel : node.level < 2 ^ 21)
    (hb : q → b = evddNodehash s.evddnodesize node.level (node.low.getD 0) node.high
      node.wLow node.wHigh)
    (hnew : q → ∀ n, s.live n = true → s.key n ≠ node.key) :
    TableInv q (s.fill node b) ∧ Inserted s node.key (s.evddfreepos, s.fill node b) := by
  obtain ⟨bucket, hthr, hbucket⟩ := h.table
  obtain ⟨-, hfs, hfl⟩ := hthr.free.head (L := s.links) hfree
  have hfresh : s.live s.evddfreepos = false := by
    have : s.live s.evddfreepos ≠ true := hfl
    simpa using this
  have hbody := fill_body s hnode b
  have hkey : (s.fill node b).key s.evddfreepos = node.key := by
    have hk := congrArg EvddNode.key (hbody s.evddfreepos)
    rw [if_pos rfl] at hk
    exact hk
  have hother : ∀ n, n ≠ s.evddfreepos → (s.fill node b).key n = s.key n := fun n hn =>
    EvddNode.key_of_body (by rw [hbody n, if_neg hn])
  have hrefcou : ∀ n, ((s.fill node b).evddnodes n).refcou = (s.evddnodes n).refcou := by
    intro n
    have hr := congrArg EvddNode.refcou (hbody n)
    by_cases hn : n = s.evddfreepos
    · rw [if_pos hn] at hr
      have h0 : ((s.fill node b).evddnodes n).refcou = 0 := Eq.trans hr href
      rw [h0, hn]
      by_contra hne
      have := (h.refcou s.evddfreepos (by omega)).resolve_left hfree
      rw [hfresh] at this
      exact Bool.false_ne_true this
    · rw [if_neg hn] at hr
      exact hr
  have hins : Inserted s node.key (s.evddfreepos, s.fill node b) :=
    ⟨hfree, hfresh, hkey, hother, hrefcou, rfl, rfl, rfl, rfl, rfl⟩
  have hlive : ∀ n, (s.fill node b).live n = true ↔ s.live n = true ∨ n = s.evddfreepos :=
    hins.live_iff hlow
  have hne : ∀ n, s.live n = true → n ≠ s.evddfreepos := fun n hn => hins.ne_of_live hn
  refine ⟨?_, hins⟩
  refine
    { running := h.running, size := h.size, terminal := ?_, beyond := fun n hn => ?_,
      refcou := fun n hn => ?_, mark := fun n => ?_, level := fun n => ?_, table := ?_,
      unique := fun hq n m hn hm hnm => ?_, cacheSize := h.cacheSize, cacheGen := h.cacheGen }
  · rw [hother 0 (Ne.symm hfree)]
    exact h.terminal
  · have hns : s.evddnodesize ≤ n := hn
    have hfs' : s.evddfreepos < s.evddnodesize := hfs
    rw [EvddState.live_congr (hother n (by omega))]
    exact h.beyond n hn
  · rw [hrefcou] at hn
    exact (h.refcou n hn).imp id fun hl => (hlive n).mpr (Or.inl hl)
  · have hm := congrArg EvddNode.mark (hbody n)
    by_cases hn : n = s.evddfreepos
    · rw [if_pos hn] at hm
      exact Eq.trans hm hmark
    · rw [if_neg hn] at hm
      exact Eq.trans hm (h.mark n)
  · by_cases hn : n = s.evddfreepos
    · rw [hn, hkey]
      exact hlevel
    · rw [hother n hn]
      exact h.level n
  · refine ⟨Function.update bucket s.evddfreepos b, ?_, fun hq n hn => ?_⟩
    · have hsize : (s.fill node b).evddnodesize = s.evddnodesize := rfl
      rw [fill_links, hsize]
      exact (hthr.alloc hfree b).congr (fun n _ _ => hlive n) fun _ _ _ _ => rfl
    · rcases (hlive n).mp hn with hn | hn
      · rw [Function.update_of_ne (hne n hn), EvddState.bucket_congr (hother n (hne n hn)) rfl]
        exact hbucket hq n hn
      · rw [hn, Function.update_self]
        exact (hb hq).trans (EvddState.bucket_eq hkey).symm
  · rcases (hlive n).mp hn with hn | hn <;> rcases (hlive m).mp hm with hm | hm
    · rw [hother n (hne n hn), hother m (hne m hm)] at hnm
      exact h.unique hq n m hn hm hnm
    · rw [hother n (hne n hn), hm, hkey] at hnm
      exact absurd hnm (hnew hq n hn)
    · rw [hother m (hne m hm), hn, hkey] at hnm
      exact absurd hnm.symm (hnew hq m hm)
    · rw [hn, hm]

theorem evddInsert_spec (h : TableInv q s) (hfree : s.evddfreepos ≠ 0) {level : ℕ}
    (low high : EVDD) (hlevel : q → level < 2 ^ 21)
    (hnew : q → ∀ n, s.live n = true → s.key n ≠ rawKey level low high) :
    TableInv q (evddInsert s level low high).2 ∧
      Inserted s (rawKey level low high) (evddInsert s level low high) := by
  rw [evddInsert_eq]
  refine fill_spec h hfree rfl rfl rfl rfl (Nat.mod_lt _ (Nat.two_pow_pos 21)) (fun hq => ?_)
    hnew
  simp only [Option.getD_some, Nat.mod_eq_of_lt (hlevel hq)]

/-! ## Values and the reference stack -/

theorem TableInv.setValues (h : TableInv q s) (V : ValueTable P) :
    TableInv q { s with values := V } :=
  h.congr rfl rfl ⟨rfl, rfl⟩ ⟨rfl, rfl⟩ rfl

theorem GraphInv.setValues (h : GraphInv s) (V : ValueTable P) :
    GraphInv { s with values := V } := ⟨h.child, h.rank, h.stack, h.cacheLive⟩

theorem Keeps.setValues (h : Keeps s s') (V : ValueTable P) :
    Keeps s { s' with values := V } := ⟨h.produced, h.nodenums, h.held, h.key, h.refcou⟩

theorem CacheStable.setValues (h : CacheStable s s') (V : ValueTable P) :
    CacheStable s { s' with values := V } := h

theorem TableInv.restack (h : TableInv q s) (l : List ℕ) :
    TableInv q { s with evddrefstack := l } := h.congr rfl rfl ⟨rfl, rfl⟩ ⟨rfl, rfl⟩ rfl

theorem GraphInv.restack (h : GraphInv s) {l : List ℕ} (hl : ∀ n ∈ l, s.IsNode n) :
    GraphInv { s with evddrefstack := l } := ⟨h.child, h.rank, hl, h.cacheLive⟩

theorem GraphInv.pushref (h : GraphInv s) {n : ℕ} (hn : s.IsNode n) :
    GraphInv (s.pushref n) :=
  h.restack fun m hm => by
    rcases List.mem_cons.mp hm with rfl | hm
    · exact hn
    · exact h.stack m hm

theorem Keeps.pushref (s : EvddState P) (n : ℕ) : Keeps s (s.pushref n) := by
  have hstack : s.evddrefstack ⊆ (s.pushref n).evddrefstack :=
    List.subset_cons_self n s.evddrefstack
  have hnodes : (s.pushref n).evddnodes = s.evddnodes := rfl
  have hheld : ∀ m, s.Held m → (s.pushref n).Held m := fun _ =>
    EvddState.held_mono hnodes hstack
  exact ⟨le_rfl, le_rfl, hheld, fun _ _ => rfl, fun _ => rfl⟩

/-- A pushed node is held. -/
theorem held_pushref {n : ℕ} (hn : s.IsNode n) : n = 0 ∨ (s.pushref n).Held n :=
  hn.imp id fun hl => ⟨n, Or.inr List.mem_cons_self, .refl hl⟩

/-! ## `evdd_makenode_raw` -/

section Make

variable [DecidableEq P] (T : ValueTypes P) (E : Policy P)

/-- The cases of `evdd_makenode_raw`. -/
inductive RawOutcome (s : EvddState P) (level : ℕ) (low high : EVDD)
    (r : EVDD × EvddState P) : Prop
  /-- Both edges are equal. -/
  | skip (same : low.node = high.node ∧ low.w = high.w) (edge : r.1 = ⟨low.node, low.w⟩)
      (state : r.2 = s)
  /-- No slot could be had. -/
  | full (differ : ¬ (low.node = high.node ∧ low.w = high.w)) (edge : r.1 = evddFalse)
      (values : r.2.values = s.values) (nodenums : r.2.nodenums = s.nodenums + 1)
  /-- The node was found or made. -/
  | node (differ : ¬ (low.node = high.node ∧ low.w = high.w))
      (live : r.2.live r.1.node = true) (key : r.2.key r.1.node = rawKey level low high)
      (weight : r.1.w = (evddValueUnitFromPair T s.values low.w high.w).1)
      (values : r.2.values = (evddValueUnitFromPair T s.values low.w high.w).2)
      (nodenums : r.2.nodenums = s.nodenums)

/-- The contract of a constructor: the invariant, what it leaves alone, and what the slots
may contain afterwards. -/
structure MakeFrame (q : Prop) (s : EvddState P) (key : EvddKey) (r : EVDD × EvddState P) :
    Prop where
  inv : TableInv q r.2
  keeps : Keeps s r.2
  cache : CacheStable s r.2
  refstack : r.2.evddrefstack = s.evddrefstack
  other : ∀ n, r.2.key n = s.key n ∨ r.2.key n = .free ∨ r.2.key n = key

omit [DecidableEq P] in
theorem keyMatches_iff {level : ℕ} {low high : EVDD} {n : ℕ} :
    keyMatches s level low high n = true ↔
      s.key n = ⟨some low.node, high.node, low.w, high.w, level⟩ := by
  simp only [keyMatches, EvddState.key, EvddNode.key, EvddKey.mk.injEq, Bool.and_eq_true,
    decide_eq_true_eq]
  tauto

theorem evddMakenodeRaw_spec (h : TableInv q s) {level : ℕ} (low high : EVDD)
    (hlevel : q → level < 2 ^ 21) :
    let r := evddMakenodeRaw T E s level low high
    MakeFrame q s (rawKey level low high) r ∧ RawOutcome T s level low high r ∧
      (∀ n, Safe E s n → r.2.IsNode n) ∧
      (GraphInv s → Safe E s low.node → Safe E s high.node → GraphInv r.2) := by
  rw [evddMakenodeRaw, h.running.1]
  simp only [Bool.not_true, Bool.false_eq_true, if_false]
  by_cases hsame : low.node = high.node ∧ low.w = high.w
  · rw [if_pos hsame]
    exact ⟨⟨h, .refl s, .refl s, rfl, fun _ => Or.inl rfl⟩, .skip hsame rfl rfl,
      fun n hn => hn.1, fun hg _ _ => hg⟩
  rw [if_neg hsame]
  obtain ⟨bucket, hthr, hbucket⟩ := h.table
  have hpos : 0 < s.evddnodesize := by
    have := h.size
    omega
  have hlt : evddNodehash s.evddnodesize level low.node high.node low.w high.w <
      s.evddnodesize := by
    rw [evddNodehash]
    exact hashrange_lt _ hpos
  have hsearch := hthr.search_spec hlt (keyMatches s level low high)
  simp only [EvddState.links] at hsearch
  set res := search (keyMatches s level low high) (fun n => (s.evddnodes n).next)
    (s.evddnodesize + 1)
    (s.evddnodes (evddNodehash s.evddnodesize level low.node high.node low.w high.w)).hash
  rcases hsearch with ⟨h0, hmiss⟩ | ⟨hres, -, -, hlive, -, hmatch⟩
  · rw [if_neg (by simpa using h0)]
    obtain ⟨hi, hr⟩ := makeRoom_spec E h
    by_cases hfree : (makeRoom E s).evddfreepos = 0
    · rw [if_pos hfree]
      refine ⟨⟨hi.congr rfl rfl ⟨rfl, rfl⟩ ⟨rfl, rfl⟩ rfl, ?_, hr.cache, hr.refstack,
        fun n => (hr.other n).imp_right Or.inl⟩, .full hsame rfl hr.values ?_,
        fun n hn => hr.node n hn, fun hg _ _ => ?_⟩
      · refine hr.keeps.trans
          ⟨le_rfl, ?_, fun _ h => h, fun _ _ => rfl, fun _ => rfl⟩
        simp [EvddState.nodenums, EvddState.error]
      · have := hr.nodenums
        simp only [EvddState.nodenums, EvddState.error, List.count_cons_self] at this ⊢
        omega
      · have := hr.graph hg
        exact ⟨this.child, this.rank, this.stack, this.cacheLive⟩
    · rw [if_neg hfree]
      have hnew : q → ∀ n, (makeRoom E s).live n = true →
          (makeRoom E s).key n ≠ rawKey level low high := by
        intro hq n hn hkey
        obtain ⟨hn', hk⟩ := hr.back n hn
        rw [hk] at hkey
        have hn0 := (EvddState.live_iff.mp hn').1
        have hkey' : s.key n = ⟨some low.node, high.node, low.w, high.w, level⟩ := by
          rw [hkey, rawKey, Nat.mod_eq_of_lt (hlevel hq)]
        have hbn : bucket n = evddNodehash s.evddnodesize level low.node high.node low.w
            high.w := by
          rw [hbucket hq n hn', EvddState.bucket_eq hkey', Option.getD_some]
        have := hmiss n (by omega) (h.live_lt hn') hn' hbn
        rw [keyMatches_iff.mpr hkey'] at this
        exact Bool.false_ne_true this.symm
      obtain ⟨hi', hins⟩ := evddInsert_spec hi hfree low high hlevel hnew
      -- from here on only `hins` matters: the slots of the new state are not to be computed
      generalize evddInsert (makeRoom E s) level low high = t at hi' hins ⊢
      obtain ⟨res', t⟩ := t
      have hv : t.values = s.values := hins.values.trans hr.values
      have hlive : t.live res' = true := (hins.live_iff rfl _).mpr (Or.inr rfl)
      refine ⟨⟨hi'.setValues _, (hr.keeps.trans hins.keeps).setValues _,
        (hr.cache.trans hins.cacheStable).setValues _, hins.refstack.trans hr.refstack,
        fun n => ?_⟩, .node hsame hlive hins.key ?_ ?_ ?_, fun n hn => hins.isNode (hr.node n hn),
        fun hg hl hh => ?_⟩
      · by_cases hn : n = res'
        · exact Or.inr (Or.inr (hn ▸ hins.key))
        · exact (hins.other n hn ▸ hr.other n).imp_right Or.inl
      · simp only [EvddState.withValues, hv]
      · simp only [EvddState.withValues, hv]
      · have := hr.nodenums
        rw [EvddState.nodenums, ← hins.errors] at this
        exact this
      · exact (hins.graph (hr.graph hg) rfl (hr.node _ hl) (hr.node _ hh)).setValues _
  · rw [if_pos hres]
    have hkey := keyMatches_iff.mp hmatch
    refine ⟨⟨h.setValues _, (Keeps.refl s).setValues _, (CacheStable.refl s).setValues _, rfl,
      fun _ => Or.inl rfl⟩, .node hsame hlive ?_ rfl rfl rfl, fun n hn => hn.1, fun hg _ _ => hg.setValues _⟩
    have hlv : level < 2 ^ 21 := by
      have := h.level res
      rwa [hkey] at this
    refine Eq.trans hkey ?_
    rw [rawKey, Nat.mod_eq_of_lt hlv]

/-- A node that is there is found. -/
theorem evddMakenodeRaw_found (h : TableInv True s) {level : ℕ} {low high : EVDD}
    (hlevel : level < 2 ^ 21) (hdiffer : ¬ (low.node = high.node ∧ low.w = high.w)) {n : ℕ}
    (hn : s.live n = true) (hkey : s.key n = rawKey level low high) :
    evddMakenodeRaw T E s level low high =
      (⟨n, (evddValueUnitFromPair T s.values low.w high.w).1⟩,
        { s with values := (evddValueUnitFromPair T s.values low.w high.w).2 }) := by
  rw [rawKey, Nat.mod_eq_of_lt hlevel] at hkey
  obtain ⟨bucket, hthr, hbucket⟩ := h.table
  have hlt : evddNodehash s.evddnodesize level low.node high.node low.w high.w <
      s.evddnodesize := by
    have hsize := h.size
    rw [evddNodehash]
    exact hashrange_lt _ (by omega)
  have hbn : bucket n = evddNodehash s.evddnodesize level low.node high.node low.w high.w := by
    rw [hbucket trivial n hn, EvddState.bucket_eq hkey, Option.getD_some]
  have hsearch := hthr.search_spec hlt (keyMatches s level low high)
  simp only [EvddState.links] at hsearch
  rw [evddMakenodeRaw, if_neg (by simp [h.running.1]), if_neg hdiffer]
  dsimp only
  generalize search (keyMatches s level low high) _ _ _ = res at hsearch ⊢
  rcases hsearch with ⟨-, hmiss⟩ | ⟨hres, -, -, hlive, -, hmatch⟩
  · have hpos : 1 ≤ n := Nat.one_le_iff_ne_zero.mpr (EvddState.live_iff.mp hn).1
    have hno := hmiss n hpos (h.live_lt hn) hn hbn
    exact absurd (keyMatches_iff.mpr hkey) (Bool.eq_false_iff.mp hno)
  · have heq : res = n := h.unique trivial res n hlive hn ((keyMatches_iff.mp hmatch).trans hkey.symm)
    rw [if_pos hres, heq]
    rfl

/-! ## `evdd_makenode` -/

/-- The cases of `evdd_makenode`, for the normalised weights `N` and the unit weight `U` of
the node. -/
inductive MakeOutcome (s : EvddState P) (level : ℕ) (low high : EVDD)
    (N : EvddNormResult × ValueTable P) (U : ValueId × ValueTable P)
    (r : EVDD × EvddState P) : Prop
  /-- Both edges are zero. -/
  | zero (zero : evddValueIsZero T N.2 N.1.incoming = true) (edge : r.1 = evddFalse)
      (values : r.2.values = N.2) (nodenums : r.2.nodenums = s.nodenums)
  /-- Both normalised edges are equal. -/
  | skip (zero : evddValueIsZero T N.2 N.1.incoming = false)
      (same : low.node = high.node ∧ N.1.wLow = N.1.wHigh)
      (edge : r.1 = ⟨low.node, (evddValueMul T N.2 N.1.incoming N.1.wLow).1⟩)
      (values : r.2.values = (evddValueMul T N.2 N.1.incoming N.1.wLow).2)
      (nodenums : r.2.nodenums = s.nodenums)
  /-- No slot could be had. -/
  | full (zero : evddValueIsZero T N.2 N.1.incoming = false) (node : r.1.node = 0)
      (weight : r.1.w = (evddValueMul T N.2 N.1.incoming evddValueZero).1)
      (values : r.2.values = (evddValueMul T N.2 N.1.incoming evddValueZero).2)
      (nodenums : r.2.nodenums = s.nodenums + 1)
  /-- The node was found or made. -/
  | node (zero : evddValueIsZero T N.2 N.1.incoming = false)
      (differ : ¬ (low.node = high.node ∧ N.1.wLow = N.1.wHigh))
      (live : r.2.live r.1.node = true)
      (key : r.2.key r.1.node = rawKey level ⟨low.node, N.1.wLow⟩ ⟨high.node, N.1.wHigh⟩)
      (weight : r.1.w = (evddValueMul T U.2 N.1.incoming U.1).1)
      (values : r.2.values = (evddValueMul T U.2 N.1.incoming U.1).2)
      (nodenums : r.2.nodenums = s.nodenums)

/-- What `evdd_makenode` guarantees. -/
structure MakeSpec (q : Prop) (s : EvddState P) (level : ℕ) (low high : EVDD)
    (N : EvddNormResult × ValueTable P) (U : ValueId × ValueTable P)
    (r : EVDD × EvddState P) : Prop where
  frame : MakeFrame q s (rawKey level ⟨low.node, N.1.wLow⟩ ⟨high.node, N.1.wHigh⟩) r
  outcome : MakeOutcome T s level low high N U r
  /-- The operands are protected during the call. -/
  pushed : ∀ n, ((s.pushref low.node).pushref high.node).Held n → r.2.key n = s.key n
  graph : GraphInv s → s.IsNode low.node → s.IsNode high.node →
    GraphInv r.2 ∧ r.2.IsNode r.1.node

/-- The state in which `evdd_makenode` looks the node up. -/
def makenodeState (s : EvddState P) (low high : EVDD) (V : ValueTable P) : EvddState P :=
  { (s.pushref low.node).pushref high.node with values := V }

theorem evddMakenode_eq (hrun : s.evddrunning = true) (level : ℕ) (low high : EVDD)
    (N : EvddNormResult × ValueTable P) (hN : evddValueNormalize T s.values low.w high.w = N) :
    evddMakenode T E s level low high =
      if evddValueIsZero T N.2 N.1.incoming then
        (evddFalse, (makenodeState s low high N.2).popref 2)
      else
        let r := evddMakenodeRaw T E (makenodeState s low high N.2) level
          ⟨low.node, N.1.wLow⟩ ⟨high.node, N.1.wHigh⟩
        (⟨r.1.node, (evddValueMul T r.2.values N.1.incoming r.1.w).1⟩,
          { r.2 with values := (evddValueMul T r.2.values N.1.incoming r.1.w).2 }.popref 2) := by
  subst hN
  rw [evddMakenode, if_neg (by simp [hrun])]
  rfl

theorem evddMakenode_spec (h : TableInv q s) {level : ℕ} (low high : EVDD)
    (hlevel : q → level < 2 ^ 21) {N : EvddNormResult × ValueTable P}
    (hN : evddValueNormalize T s.values low.w high.w = N) {U : ValueId × ValueTable P}
    (hU : evddValueUnitFromPair T N.2 N.1.wLow N.1.wHigh = U) :
    MakeSpec T q s level low high N U (evddMakenode T E s level low high) := by
  rw [evddMakenode_eq T E h.running.1 level low high N hN]
  set s₁ := makenodeState s low high N.2 with hs₁
  have h₁ : TableInv q s₁ := (h.restack (high.node :: low.node :: s.evddrefstack)).setValues N.2
  have hk₁ : Keeps s s₁ := ((Keeps.pushref s low.node).trans (.pushref _ high.node)).setValues N.2
  have hpop : ∀ t : EvddState P, t.evddrefstack = s₁.evddrefstack → Keeps s t →
      Keeps s (t.popref 2) ∧ (t.popref 2).evddrefstack = s.evddrefstack := by
    intro t ht hk
    have hst : (t.popref 2).evddrefstack = s.evddrefstack := by
      rw [EvddState.popref, ht]
      rfl
    exact ⟨hk.restack rfl (hst ▸ List.Subset.refl _) rfl rfl, hst⟩
  have hsafe : ∀ n, s.IsNode n → n = low.node ∨ n = high.node → Safe E s₁ n := by
    intro n hn hmem
    refine ⟨hn, fun _ => hn.imp id fun hl => ⟨n, Or.inr ?_, .refl hl⟩⟩
    rcases hmem with rfl | rfl
    · exact List.mem_cons_of_mem _ List.mem_cons_self
    · exact List.mem_cons_self
  by_cases hz : evddValueIsZero T N.2 N.1.incoming = true
  · rw [if_pos hz]
    obtain ⟨hk, hst⟩ := hpop s₁ rfl hk₁
    refine ⟨⟨h₁.restack _, hk, .refl s, hst, fun _ => Or.inl rfl⟩, .zero hz rfl rfl rfl,
      fun _ _ => rfl, fun hg _ _ => ⟨?_, Or.inl rfl⟩⟩
    refine ⟨hg.child, hg.rank, fun n hn => ?_, hg.cacheLive⟩
    rw [hst] at hn
    exact hg.stack n hn
  rw [if_neg hz]
  have hz' : evddValueIsZero T N.2 N.1.incoming = false := by simpa using hz
  obtain ⟨hframe, hout, hnode, hgraph⟩ := evddMakenodeRaw_spec T E h₁
    ⟨low.node, N.1.wLow⟩ ⟨high.node, N.1.wHigh⟩ hlevel
  generalize evddMakenodeRaw T E s₁ level ⟨low.node, N.1.wLow⟩ ⟨high.node, N.1.wHigh⟩ = r
    at hframe hout hnode hgraph ⊢
  obtain ⟨e, t⟩ := r
  simp only
  set M := evddValueMul T t.values N.1.incoming e.w with hM
  obtain ⟨hk, hst⟩ := hpop { t with values := M.2 } hframe.refstack
    ((hk₁.trans hframe.keeps).setValues M.2)
  have hcache : CacheStable s ({ t with values := M.2 }.popref 2) := hframe.cache
  refine ⟨⟨(hframe.inv.setValues M.2).restack _, hk, hcache, hst, hframe.other⟩, ?_,
    fun n hn => hframe.keeps.key n hn, fun hg hl hh => ⟨?_, ?_⟩⟩
  · cases hout with
    | skip same edge state =>
      have hv : t.values = N.2 := by
        have : t.values = s₁.values := congrArg EvddState.values state
        exact this
      have he : e = ⟨low.node, N.1.wLow⟩ := edge
      have hM' : M = evddValueMul T N.2 N.1.incoming N.1.wLow := by rw [hM, hv, he]
      refine .skip hz' same ?_ ?_ ?_
      · rw [← hM', he]
      · rw [← hM']
        rfl
      · have hn : t.nodenums = s₁.nodenums := congrArg EvddState.nodenums state
        exact hn
    | full differ edge values nodenums =>
      have hv : t.values = N.2 := values
      have he : e = evddFalse := edge
      have hM' : M = evddValueMul T N.2 N.1.incoming evddValueZero := by
        rw [hM, hv, he]
        rfl
      refine .full hz' ?_ ?_ ?_ nodenums
      · rw [he]
        rfl
      · rw [← hM']
      · rw [← hM']
        rfl
    | node differ live key weight values nodenums =>
      have hv : t.values = U.2 := by
        rw [← hU]
        exact values
      have he : e.w = U.1 := by
        rw [← hU]
        exact weight
      have hM' : M = evddValueMul T U.2 N.1.incoming U.1 := by rw [hM, hv, he]
      refine .node hz' differ live key ?_ ?_ nodenums
      · rw [← hM']
      · rw [← hM']
        rfl
  · have hg₁ : GraphInv s₁ := ((hg.pushref hl).pushref hh).setValues N.2
    have hgt : GraphInv t :=
      hgraph hg₁ (hsafe _ hl (Or.inl rfl)) (hsafe _ hh (Or.inr rfl))
    refine ⟨hgt.child, hgt.rank, fun n hn => hgt.stack n ?_, hgt.cacheLive⟩
    exact List.mem_of_mem_drop hn
  · cases hout with
    | skip same edge state =>
      have he : e = ⟨low.node, N.1.wLow⟩ := edge
      have hst' : t = s₁ := state
      rw [he, hst']
      exact hl
    | full differ edge values nodenums =>
      have he : e = evddFalse := edge
      rw [he]
      exact Or.inl rfl
    | node differ live key weight values nodenums => exact Or.inr live

end Make

end MoToBuddy.Evdd
