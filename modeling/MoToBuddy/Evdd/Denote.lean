import MoToBuddy.Evdd.Exact
import MoToBuddy.Evdd.Frame

/-!
# What edges denote

An edge with weights of one exact type denotes a weighted tree, and through it a function of
the assignments. Whatever runs in between, an edge denotes the same tree before and after as
long as the nodes below it keep their keys (`Unfolds.transfer`). The unique table gives the
converse: nodes with the same tree are the same node (`Unfolds.inj`).
-/

namespace MoToBuddy.Evdd

open Weighted Chained Marking

/-! ## Nodes that keep their keys -/

section Transfer

variable {P W : Type*} {s s' : EvddState P} {lab lab' : ValueId → Option W} {D : ℕ → Prop}

/-- Nothing changed at the nodes of `D`, which are closed under children. -/
structure Untouched (s s' : EvddState P) (D : ℕ → Prop) : Prop where
  key : ∀ n, D n → n ≠ evddTrueNode → s'.key n = s.key n
  child : ∀ n, D n → n ≠ evddTrueNode → ∀ m ∈ s.succ n, D m

theorem Untouched.symm (h : Untouched s s' D) : Untouched s' s D := by
  refine ⟨fun n hn h0 => (h.key n hn h0).symm, fun n hn h0 m hm => ?_⟩
  rw [EvddState.succ_congr (h.key n hn h0)] at hm
  exact h.child n hn h0 m hm

theorem Untouched.unfolds (h : Untouched s s' D)
    (hlab : ∀ n, D n → n ≠ evddTrueNode → ∀ id, id = (s.key n).wLow ∨ id = (s.key n).wHigh →
      lab' id = lab id) {n : ℕ} (hn : D n) {τ : WTree W} (hτ : s.Unfolds lab n τ) :
    s'.Unfolds lab' n τ := by
  induction hτ with
  | leaf => exact .leaf
  | @node n low high level wLow wHigh l r tl tr inner key hl hr below above ihl ihr =>
    have hlab := hlab n hn inner
    have hchild := h.child n hn inner
    rw [key] at hlab
    rw [EvddState.succ, key] at hchild
    refine .node inner ((h.key n hn inner).trans key) ?_ ?_ ?_ ?_
    · exact (hlab wLow (Or.inl rfl)).trans hl
    · exact (hlab wHigh (Or.inr rfl)).trans hr
    · exact ihl (hchild low (by simp))
    · exact ihr (hchild high (by simp))

/-- A node below which nothing changed represents the same trees. -/
theorem Untouched.unfolds_iff (h : Untouched s s' D)
    (hlab : ∀ n, D n → n ≠ evddTrueNode → ∀ id, id = (s.key n).wLow ∨ id = (s.key n).wHigh →
      lab' id = lab id) {n : ℕ} (hn : D n) {τ : WTree W} :
    s'.Unfolds lab' n τ ↔ s.Unfolds lab n τ := by
  refine ⟨fun hτ => h.symm.unfolds (fun m hm h0 id hid => ?_) hn hτ, h.unfolds hlab hn⟩
  rw [h.key m hm h0] at hid
  exact (hlab m hm h0 id hid).symm

theorem Keeps.untouched {q : Prop} (hk : Keeps s s') (h : TableInv q s) (hg : GraphInv s) :
    Untouched s s' fun n => n = evddTrueNode ∨ s.Held n :=
  ⟨fun n hn h0 => hk.key n (hn.resolve_left h0), fun _ hn _ _ hm => held_child h hg hn hm⟩

/-- Without a collection all nodes are untouched. -/
theorem GraphInv.untouched (hg : GraphInv s)
    (hkey : ∀ n, s.live n = true → s'.live n = true ∧ s'.key n = s.key n) :
    Untouched s s' s.IsNode :=
  ⟨fun n hn h0 => (hkey n (hn.resolve_left h0)).2,
    fun n hn h0 m hm => hg.child n (hn.resolve_left h0) m hm⟩

/-- Every node of a graph without cycles has a tree. -/
theorem GraphInv.exists_unfolds (hg : GraphInv s) {n : ℕ} (hn : s.IsNode n) :
    ∃ τ : WTree Unit, s.Unfolds (fun _ => some ()) n τ ∧ τ.depth ≤ s.evddproduced := by
  obtain ⟨rank, hr0, hrank⟩ := hg.rank
  -- by induction on the rank, which bounds the depth
  have hall : ∀ k n, s.IsNode n → rank n ≤ k →
      ∃ τ : WTree Unit, s.Unfolds (fun _ => some ()) n τ ∧ τ.depth ≤ k := by
    intro k
    induction k with
    | zero =>
      intro n hn hk
      rcases hn with rfl | hl
      · exact ⟨.leaf, .leaf, le_rfl⟩
      · exfalso
        obtain ⟨-, low, hlow⟩ := EvddState.live_iff.mp hl
        have hlt := (hrank n hl).2 low (by simp [EvddState.succ, hlow])
        omega
    | succ k ih =>
      intro n hn hk
      rcases hn with rfl | hl
      · exact ⟨.leaf, .leaf, Nat.zero_le _⟩
      obtain ⟨h0, low, hlow⟩ := EvddState.live_iff.mp hl
      have hsucc : s.succ n = [low, (s.key n).high] := by
        rw [EvddState.succ, hlow]
      have hrank' : ∀ m ∈ [low, (s.key n).high], rank m ≤ k := by
        intro m hm
        have hlt := (hrank n hl).2 m (hsucc ▸ hm)
        omega
      have hchild : ∀ m ∈ [low, (s.key n).high], s.IsNode m := fun m hm =>
        hg.child n hl m (hsucc ▸ hm)
      obtain ⟨τl, hl', hdl⟩ := ih low (hchild _ (by simp)) (hrank' _ (by simp))
      obtain ⟨τh, hh', hdh⟩ := ih (s.key n).high (hchild _ (by simp)) (hrank' _ (by simp))
      have hkey : s.key n =
          ⟨some low, (s.key n).high, (s.key n).wLow, (s.key n).wHigh, (s.key n).level⟩ := by
        rw [← hlow]
      refine ⟨_, .node h0 hkey rfl rfl hl' hh', ?_⟩
      show max τl.depth τh.depth + 1 ≤ k + 1
      omega
  rcases hn with rfl | hl
  · exact ⟨.leaf, .leaf, Nat.zero_le _⟩
  · exact hall _ n (Or.inr hl) (hrank n hl).1

end Transfer

/-! ## Sessions whose callers pass in edges that exist -/

section Session

variable {P : Type*} [DecidableEq P] {T : ValueTypes P} {s s' : EvddState P} {e : EVDD}

/-- All the invariants of the package. -/
structure Consistent (T : ValueTypes P) (s : EvddState P) : Prop where
  table : TableInv True s
  values : ValueInv T s.values
  graph : GraphInv s
  weight : WeightInv s

/-- An edge that a call may be given: its node is protected and its weight is valid. -/
def EvddState.Handle (s : EvddState P) (e : EVDD) : Prop :=
  (e.node = evddTrueNode ∨ s.Held e.node) ∧ s.values.Valid e.w

omit [DecidableEq P] in
theorem EvddState.Handle.isNode (h : s.Handle e) : s.IsNode e.node :=
  h.1.imp id EvddState.Held.live

theorem Evolves.handle {q : Prop} (he : Evolves q T s s') (hs : Consistent T s)
    (hh : s.Handle e) : s'.Handle e :=
  ⟨he.held hh.1, (he.values hs.values).ext.valid hh.2⟩

theorem CallSpec.consistent {operands : List EVDD} {r : EVDD × EvddState P}
    (h : CallSpec True T s operands r) (hs : Consistent T s)
    (hop : ∀ e ∈ operands, s.Handle e) :
    Consistent T r.2 ∧ r.2.IsNode r.1.node ∧ r.2.values.Valid r.1.w := by
  obtain ⟨hw, hv⟩ := h.weight hs.values hs.weight fun e he => (hop e he).2
  obtain ⟨hg, hn⟩ := h.graph hs.graph fun e he => (hop e he).1
  exact ⟨⟨h.inv, (h.values hs.values).inv, hg, hw⟩, hn, hv⟩

theorem Consistent.pushref (hs : Consistent T s) {n : ℕ} (hn : s.IsNode n) :
    Consistent T (s.pushref n) :=
  ⟨hs.table.restack _, hs.values, hs.graph.pushref hn, hs.weight.pushref n⟩

theorem EdgeSpec.consistent {r : EVDD × EvddState P} (h : EdgeSpec T s e r)
    (hs : Consistent T s) (hh : s.Handle e) : Consistent T r.2 ∧ r.2.Handle r.1 := by
  have hev := h.evolves hs.table
  refine ⟨⟨hev.inv, (h.values hs.values).inv, h.graphInv hs.graph,
    h.weightInv hs.values hs.weight⟩, ?_, h.weight hs.values hs.weight hh.2⟩
  exact hev.held (h.graph hs.graph hh.1)

end Session

/-! ## Weighted trees -/

variable {K : Type*} [Field K] {T : ValueTypes K} {t : ℕ} {s s' : EvddState K} {e : EVDD}

/-- An edge denotes a weighted tree with increasing levels. -/
def EvddState.Denotes (s : EvddState K) (t : ℕ) (e : EVDD) (w : WEdge K) : Prop :=
  s.Edge (s.values.weight t) e w.1 w.2 ∧ w.2.Ordered evddMaxlevel

/-- Valid ids keep their meaning. -/
def ValueTable.Means (V V' : ValueTable K) : Prop :=
  ∀ t id, V.Valid id → V'.weight t id = V.weight t id

theorem ValueTable.Ext.means {V V' : ValueTable K} (h : V.Ext V') : V.Means V' := by
  intro t id hid
  unfold ValueTable.weight
  rcases hid with rfl | hid
  · rfl
  · rw [h id hid]

theorem ValueTable.Same.means {V V' : ValueTable K} (h : V.Same V') : V.Means V' := by
  intro t id _
  unfold ValueTable.weight
  rw [(h id).1, (h id).2]

theorem valid_of_weight {V : ValueTable K} {id : ValueId} {x : K} (h : V.weight t id = some x) :
    V.Valid id := by
  unfold ValueTable.weight at h
  split at h
  · rename_i h0
    exact Or.inl h0
  · split at h
    · right
      rw [h]
      rfl
    · exact absurd h (Option.some_ne_none x).symm

theorem EvddState.Denotes.unique {w w' : WEdge K} (h : s.Denotes t e w) (h' : s.Denotes t e w') :
    w = w' := by
  have h1 := h.1.1.symm.trans h'.1.1
  exact Prod.ext (Option.some.inj h1) (h.1.2.unique h'.1.2)

/-- An edge below which nothing changed denotes what it denoted. -/
theorem Untouched.denotes_iff {D : ℕ → Prop} (h : Untouched s s' D) (hw : WeightInv s)
    (ht : TableInv True s) (hmeans : s.values.Means s'.values) (hn : D e.node)
    (hv : s.values.Valid e.w) {w : WEdge K} : s'.Denotes t e w ↔ s.Denotes t e w := by
  unfold EvddState.Denotes EvddState.Edge
  rw [hmeans t _ hv, h.unfolds_iff (fun m _ _ id hid => ?_) hn]
  obtain ⟨hvl, hvh⟩ := hw.valid ht m
  rcases hid with rfl | rfl
  · exact hmeans t _ hvl
  · exact hmeans t _ hvh

variable [DecidableEq K]

theorem Evolves.denotes_iff {q : Prop} (he : Evolves q T s s') (hs : Consistent T s)
    (hh : s.Handle e) {w : WEdge K} : s'.Denotes t e w ↔ s.Denotes t e w :=
  (he.keeps.untouched hs.table hs.graph).denotes_iff hs.weight hs.table
    (he.values hs.values).ext.means hh.1 hh.2

/-- Without a collection every edge denotes what it denoted. -/
theorem Consistent.denotes_iff (hs : Consistent T s)
    (hkey : ∀ n, s.live n = true → s'.live n = true ∧ s'.key n = s.key n)
    (hmeans : s.values.Means s'.values) (hn : s.IsNode e.node) (hv : s.values.Valid e.w)
    {w : WEdge K} : s'.Denotes t e w ↔ s.Denotes t e w :=
  (hs.graph.untouched hkey).denotes_iff hs.weight hs.table hmeans hn hv

theorem Consistent.denotes_setValues (hs : Consistent T s) {V : ValueTable K}
    (hext : s.values.Ext V) (hn : s.IsNode e.node) (hv : s.values.Valid e.w) {w : WEdge K} :
    EvddState.Denotes { s with values := V } t e w ↔ s.Denotes t e w := by
  have hD : Untouched s { s with values := V } s.IsNode :=
    hs.graph.untouched fun _ h => ⟨h, rfl⟩
  exact hD.denotes_iff hs.weight hs.table hext.means hn hv

/-! ## Nodes with the same tree -/

/-- The unique table keeps one node for a tree. -/
theorem EvddState.Unfolds.inj (hX : ExactField T t) (ht : TableInv True s)
    (hV : ValueInv T s.values) {n m : ℕ} {τ : WTree K}
    (h : s.Unfolds (s.values.weight t) n τ) (h' : s.Unfolds (s.values.weight t) m τ) : n = m := by
  induction h generalizing m with
  | leaf =>
    cases h' with
    | leaf => rfl
  | node inner key hl hh below above ihl ihh =>
    cases h' with
    | node inner' key' hl' hh' below' above' =>
      have hlive := EvddState.live_iff.mpr ⟨inner, _, congrArg EvddKey.low key⟩
      have hlive' := EvddState.live_iff.mpr ⟨inner', _, congrArg EvddKey.low key'⟩
      apply ht.unique trivial _ _ hlive hlive'
      rw [key, key', ihl below', ihh above', weight_inj hX hV hl hl', weight_inj hX hV hh hh']

/-- Edges that denote the same tree are the same edge. -/
theorem EvddState.Denotes.inj (hX : ExactField T t) (hs : Consistent T s) {e' : EVDD}
    {w : WEdge K} (h : s.Denotes t e w) (h' : s.Denotes t e' w) : e = e' := by
  have hnode : e.node = e'.node := h.1.2.inj hX hs.table hs.values h'.1.2
  have hw : e.w = e'.w := weight_inj hX hs.values h.1.1 h'.1.1
  cases e
  cases e'
  exact EVDD.mk.injEq .. ▸ ⟨hnode, hw⟩

end MoToBuddy.Evdd
