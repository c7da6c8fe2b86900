import MoToBuddy.Evdd.ApplyLaws

/-!
# What `evdd_normalize` computes

The walk over a raw diagram returns, for every node, an edge with the function of the node
(`evddNormalizeNode_sound`). The results in its memo stay protected: after a visit the result of
the high child is popped from the reference stack, but it is then a child of the new node. A node
whose function is zero has no new node, and is only safe if its high child is the terminal
(`WTree.Guarded`).
-/

namespace MoToBuddy.Evdd

open Weighted Chained Marking

variable {K : Type*} [Field K] [DecidableEq K] {T : ValueTypes K} {E : Policy K}
  {ops : EvddApplyOps K} {t : ℕ} {factor : K → K → K} {s s' : EvddState K} {memo : EvddNormMemo}

/-! ## Protection -/

section Keeps

variable {P : Type*} {s s' u : EvddState P}

/-- A stack whose entries still protect what they protected. -/
theorem Keeps.rehold (h : Keeps s s') (hnodes : u.evddnodes = s'.evddnodes)
    (hstack : ∀ n ∈ s.evddrefstack, s.live n = true → u.Held n)
    (hprod : u.evddproduced = s'.evddproduced) (herr : u.errors = s'.errors) : Keeps s u := by
  have hkey : ∀ n, u.key n = s'.key n := fun n => by rw [EvddState.key, hnodes]; rfl
  have hkey' : ∀ n, s.Held n → u.key n = s.key n := fun n hn => (hkey n).trans (h.key n hn)
  refine ⟨by rw [hprod]; exact h.produced, ?_, fun n hn => ?_, hkey', fun n => ?_⟩
  · have := h.nodenums
    rwa [EvddState.nodenums, EvddState.nodenums, ← herr] at this
  · refine EvddState.Held.congr hkey' (fun r hr hl => ?_) hn
    rcases hr with hr | hr
    · refine ⟨r, Or.inl ?_, .refl ?_⟩
      · rw [hnodes, h.refcou]
        exact hr
      · rw [EvddState.live_congr (hkey' r ⟨r, Or.inl hr, .refl hl⟩)]
        exact hl
    · exact hstack r hr hl
  · rw [hnodes]
    exact h.refcou n

end Keeps

omit [Field K] in
theorem Consistent.restack (hs : Consistent T s) {l : List ℕ} (hl : ∀ n ∈ l, s.IsNode n) :
    Consistent T { s with evddrefstack := l } :=
  ⟨hs.table.restack _, hs.values, hs.graph.restack hl,
    ⟨hs.weight.node, hs.weight.free, hs.weight.cache⟩⟩

/-! ## The memo -/

omit [DecidableEq K] in
theorem EvddState.denotes_node {n : ℕ} {τ : WTree K} :
    s.Denotes t ⟨n, evddValueZero⟩ (0, τ) ↔
      s.Unfolds (s.values.weight t) n τ ∧ τ.Ordered evddMaxlevel :=
  ⟨fun h => ⟨h.1.2, h.2⟩, fun h => ⟨⟨weight_zero _ t, h.1⟩, h.2⟩⟩

/-- A node and its result: both are protected, and the result has the function of the node. -/
structure MemoEntry (s : EvddState K) (t : ℕ) (factor : K → K → K) (n : ℕ) (e : EVDD) :
    Prop where
  held : s.Held n
  handle : s.Handle e
  result : ∃ τ w, s.Denotes t ⟨n, evddValueZero⟩ (0, τ) ∧ s.Denotes t e w ∧
    NormalForm evddMaxlevel factor (1, τ) w

/-- What the memo holds are results. -/
def MemoSound (s : EvddState K) (t : ℕ) (factor : K → K → K) (memo : EvddNormMemo) : Prop :=
  ∀ n e, memo n = some e → MemoEntry s t factor n e

omit [DecidableEq K] in
theorem MemoEntry.evolves [DecidableEq K] {q : Prop} {n : ℕ} {e : EVDD}
    (h : MemoEntry s t factor n e) (hs : Consistent T s) (he : Evolves q T s s') :
    MemoEntry s' t factor n e := by
  obtain ⟨τ, w, hτ, hw, hnorm⟩ := h.result
  refine ⟨he.keeps.held n h.held, he.handle hs h.handle, τ, w, ?_, ?_, hnorm⟩
  · exact (he.denotes_iff hs ⟨Or.inr h.held, ValueTable.valid_zero _⟩).mpr hτ
  · exact (he.denotes_iff hs h.handle).mpr hw

theorem MemoSound.evolves {q : Prop} (h : MemoSound s t factor memo) (hs : Consistent T s)
    (he : Evolves q T s s') : MemoSound s' t factor memo :=
  fun n e hne => (h n e hne).evolves hs he

/-! ## The walk -/

/-- What normalising the edge `(c, τ)` gives. The stack is as before, or has the result on top. -/
structure NormalizeSound (T : ValueTypes K) (ops : EvddApplyOps K) (t : ℕ)
    (factor : K → K → K) (v : WEdge K) (s : EvddState K)
    (r : EVDD × EvddNormMemo × EvddState K) : Prop where
  consistent : Consistent T r.2.2
  cache : CacheSound T ops r.2.2
  memo : MemoSound r.2.2 t factor r.2.1
  handle : r.2.2.Handle r.1
  stack : r.2.2.evddrefstack = s.evddrefstack ∨
    ∃ l, r.2.2.evddrefstack = r.1.node :: l ∧ s.evddrefstack <:+ l
  result : ∃ w, r.2.2.Denotes t r.1 w ∧ NormalForm evddMaxlevel factor v w

/-- One child, given what the recursive call computes. -/
theorem normalizeEdge_sound (hT : LawfulNormalize T) (hX : ExactField T t)
    (hf : CommonFactor factor) {fuel child : ℕ}
    {w : EvddState K → ValueId} {c : K} {τ : WTree K}
    {r : EVDD × EvddNormMemo × EvddState K} (hs : Consistent T s) (hc : CacheSound T ops s)
    (hm : MemoSound s t factor memo) (hn : child = evddTrueNode ∨ s.Held child)
    (hτ : s.Denotes t ⟨child, evddValueZero⟩ (0, τ))
    (hw : ∀ s', Evolves True T s s' → s'.values.weight t (w s') = some c)
    (ih : ∀ {r : EVDD × EvddNormMemo × EvddState K}, child ≠ evddTrueNode →
      evddNormalizeNode T E fuel child (memo, s) = some r → r.2.2.nodenums = s.nodenums →
      NormalizeSound T ops t factor (1, τ) s r)
    (hr : normalizeEdge T (evddNormalizeNode T E fuel) child w memo s = some r)
    (hroom : r.2.2.nodenums = s.nodenums) : NormalizeSound T ops t factor (c, τ) s r := by
  rw [normalizeEdge] at hr
  split at hr
  · rename_i h0
    obtain rfl := Option.some.inj hr
    have hwc := hw s ⟨hs.table, .refl s, fun hV => .refl hV⟩
    obtain rfl : τ = .leaf := (hτ.const h0).2
    refine ⟨hs, hc, hm, ⟨Or.inl h0, valid_of_weight hwc⟩, Or.inl rfl, (c, .leaf), ?_, .const c⟩
    rw [h0]
    exact ⟨⟨hwc, .leaf⟩, trivial⟩
  · rename_i h0
    simp only [Option.bind_eq_bind, Option.bind_eq_some_iff] at hr
    obtain ⟨e, he, hr⟩ := hr
    obtain rfl := Option.some.inj hr
    have hframe := evddNormalizeNode_frame hT fuel hs.table he
    have hsound := ih h0 he hroom
    obtain ⟨u, hu, hnorm⟩ := hsound.result
    have hs' := hsound.consistent
    have hwc := hw e.2.2 hframe.evolves
    have hext := (evddValueMul_algebraic hs'.values (w e.2.2) e.1.w).ext
    have hmul := weight_mul hX hs'.values hwc hu.1.1
    set V := (evddValueMul T e.2.2.values (w e.2.2) e.1.w).2
    have hev : Evolves True T e.2.2 { e.2.2 with values := V } :=
      ⟨hs'.table.setValues _, (Keeps.refl _).setValues _, fun _ => hext⟩
    refine ⟨⟨hs'.table.setValues V, hext.inv, hs'.graph.setValues V, hs'.weight.of_values hext.ext⟩,
      hsound.cache.stable hs' (.of_nodes rfl rfl) hext.ext.means,
      hsound.memo.evolves hs' hev, ⟨(hev.handle hs' hsound.handle).1, valid_of_weight hmul⟩,
      hsound.stack, (c * u.1, u.2), ⟨⟨hmul, ?_⟩, hu.2⟩, hnorm.smul hf c⟩
    exact ((hev.denotes_iff hs' hsound.handle).mpr hu).1.2

omit [Field K] in
/-- The operands of a node are below it, unless both are zero. -/
theorem makenode_below {level : ℕ} {low high : EVDD} {N : EvddNormResult × ValueTable K}
    {U : ValueId × ValueTable K} {r : EVDD × EvddState K}
    (ho : MakeOutcome T s level low high N U r) (hroom : r.2.nodenums = s.nodenums)
    (hz : evddValueIsZero T N.2 N.1.incoming = false) {n : ℕ} (hn : n = low.node ∨ n = high.node) :
    n = r.1.node ∨ r.2.live r.1.node = true ∧ n ∈ r.2.succ r.1.node := by
  cases ho with
  | zero zero _ _ _ => rw [hz] at zero; exact absurd zero Bool.false_ne_true
  | skip _ same edge _ _ =>
    left
    rw [edge]
    rcases hn with rfl | rfl
    · rfl
    · exact same.1.symm
  | full _ _ _ _ nodenums => omega
  | node _ _ live key _ _ _ =>
    refine Or.inr ⟨live, ?_⟩
    rw [EvddState.succ, key]
    simpa [rawKey] using hn

/-- What the end of a visit leaves: the state `f` after the two entries of the children are
popped and the new node is pushed. -/
structure Visited (T : ValueTypes K) (ops : EvddApplyOps K) (t : ℕ) (factor : K → K → K)
    (level : ℕ) (u v : WEdge K) (s : EvddState K) (e : EVDD) (f : EvddState K) : Prop where
  consistent : Consistent T f
  cache : CacheSound T ops f
  evolves : Evolves True T s f
  handle : f.Handle e
  result : ∃ w, f.Edge (f.values.weight t) e w.1 w.2 ∧ Makes factor True level u v w

/-- The end of a visit. The entry that the second pop takes off the stack is the marker of the
low child or the result of the high child: the new node is above both. -/
theorem visit_sound (hT : LawfulNormalize T) (hX : ExactField T t) (hN : Normalizing T t factor)
    {low high : EVDD} {level : ℕ} {u v : WEdge K} {m : EVDD × EvddState K}
    (hs : Consistent T s) (hc : CacheSound T ops s) (hl : s.Handle low) (hh : s.Handle high)
    (hu : s.Denotes t low u) (hv : s.Denotes t high v) (hne : u.1 ≠ 0 ∨ v.1 ≠ 0)
    (hM : level ≤ evddMaxlevel)
    (hstack : ∃ n, s.evddrefstack = n :: s.evddrefstack.tail ∧ (n = low.node ∨ n = high.node))
    (make : m = evddMakenode T E (s.pushref high.node) level low high)
    (hroom : m.2.nodenums = s.nodenums) :
    Visited T ops t factor level u v s m.1 ((m.2.popref 2).pushref m.1.node) := by
  have p : Evolves True T s (s.pushref high.node) := .pushref hs.table _
  have hsp := hs.pushref hh.isNode
  have hlp := p.handle hs hl
  have hhp := p.handle hs hh
  have hmk := evddMakenode_call (E := E) hT p.inv low high fun _ => Nat.lt_succ_of_le hM
  have hmspec := evddMakenode_spec T E p.inv low high (fun _ => Nat.lt_succ_of_le hM) rfl rfl
  have hmakes := evddMakenode_makes (E := E) hT hX hN hsp hM hlp.isNode hhp.isNode
    (EvddState.denotes_pushref.mpr hu) (EvddState.denotes_pushref.mpr hv)
  have hnext := (evddValueNormalize_spec hT hs.values low.w high.w).ext
  have hW := hN.spec s.values hs.values low.w high.w u.1 v.1 hu.1.1 hv.1.1
  have hz := isZero_false hX hnext.inv hW.incoming (hN.factor_ne hne)
  rw [← make] at hmk hmspec hmakes
  obtain ⟨w, hedge, hmake⟩ := hmakes hroom
  obtain ⟨hsm, hnode, hvalid⟩ := hmk.consistent hsp (pair_forall hlp hhp)
  have hall := p.trans hmk.evolves
  set f := (m.2.popref 2).pushref m.1.node with hf
  have hfstack : f.evddrefstack = m.1.node :: s.evddrefstack.tail := by
    have h₁ : m.2.evddrefstack = high.node :: s.evddrefstack := hmk.refstack
    rw [hf, EvddState.pushref, EvddState.popref, h₁]
    obtain ⟨n, hn, -⟩ := hstack
    rw [hn]
    rfl
  have hkey : ∀ n, f.key n = m.2.key n := fun _ => rfl
  have hlive : ∀ n, f.live n = m.2.live n := fun _ => rfl
  -- the children of the new node are held by it
  have hbelow : ∀ n, s.Held n → n = low.node ∨ n = high.node → f.Held n := by
    intro n hn hlh
    have hln : f.live n = true := (hall.keeps.held n hn).live
    have hroot : f.Root m.1.node := Or.inr (by rw [hfstack]; exact List.mem_cons_self)
    rcases makenode_below hmspec.outcome hroom hz hlh with rfl | ⟨hlm, hmem⟩
    · exact ⟨_, hroot, .refl hln⟩
    · exact ⟨_, hroot, .step (.refl hlm) hmem hln⟩
  have hev : Evolves True T s f := by
    refine ⟨hsm.table.restack _, hall.keeps.rehold rfl (fun n hn hln => ?_) rfl rfl, hall.values⟩
    have hheld : s.Held n := ⟨n, Or.inr hn, .refl hln⟩
    obtain ⟨top, htop, hor⟩ := hstack
    rw [htop] at hn
    rcases List.mem_cons.mp hn with rfl | hn
    · exact hbelow n hheld hor
    · exact ⟨n, Or.inr (by rw [hfstack]; exact List.mem_cons_of_mem _ hn),
        .refl (hall.keeps.held n hheld).live⟩
  have hpop : Consistent T (m.2.popref 2) :=
    hsm.restack fun n hn => hsm.graph.stack n (List.mem_of_mem_drop hn)
  have hpush : CacheStable s (s.pushref high.node) := .of_nodes rfl rfl
  have hD : Untouched m.2 f fun _ => True := ⟨fun _ _ _ => rfl, fun _ _ _ _ _ => trivial⟩
  refine ⟨hpop.pushref hnode, ?_, hev, ⟨?_, hvalid⟩, w, ⟨hedge.1, ?_⟩, hmake⟩
  · have c₁ := hc.stable hs hpush fun _ _ _ => rfl
    have c₂ := c₁.stable hsp hmspec.frame.cache (hmk.values hsp.values).ext.means
    exact c₂.stable hsm (.of_nodes rfl rfl) fun _ _ _ => rfl
  · exact hnode.imp id fun hl => ⟨m.1.node, Or.inr (by rw [hfstack]; exact List.mem_cons_self),
      .refl hl⟩
  · exact hD.unfolds (fun _ _ _ _ _ => rfl) trivial hedge.2

/-- The end of a visit to a node with two zero edges: no node is made. If the high child is the
terminal, then it is the markers of the two children that are popped. -/
theorem visit_zero (hT : LawfulNormalize T) (hX : ExactField T t) (hN : Normalizing T t factor)
    {low high : EVDD} {level : ℕ} {u v : WEdge K} {m : EVDD × EvddState K}
    (hs : Consistent T s) (hc : CacheSound T ops s) (hu : s.Denotes t low u)
    (hv : s.Denotes t high v) (hz : u.1 = 0 ∧ v.1 = 0)
    (make : m = evddMakenode T E ((s.pushref low.node).pushref high.node) level low high) :
    Visited T ops t factor level u v s m.1 ((m.2.popref 2).pushref m.1.node) := by
  have hnext := (evddValueNormalize_spec hT hs.values low.w high.w).ext
  have hW := hN.spec s.values hs.values low.w high.w u.1 v.1 hu.1.1 hv.1.1
  generalize hNdef : evddValueNormalize T s.values low.w high.w = N at hnext hW
  have hzero : evddValueIsZero T N.2 N.1.incoming = true := by
    rw [isZero_iff hX hnext.inv hW.incoming, hz.1, hz.2]
    exact hN.zero
  have hrun : ((s.pushref low.node).pushref high.node).evddrunning = true := hs.table.running.1
  rw [evddMakenode_eq T E hrun level low high N hNdef, if_pos hzero] at make
  subst make
  have h₁ : Consistent T { s with values := N.2 } :=
    ⟨hs.table.setValues N.2, hnext.inv, hs.graph.setValues N.2, hs.weight.of_values hnext.ext⟩
  have e₁ : Evolves True T s { s with values := N.2 } :=
    ⟨h₁.table, (Keeps.refl _).setValues _, fun _ => hnext⟩
  have hend : ((((makenodeState ((s.pushref low.node).pushref high.node) low high N.2).popref 2).popref
      2).pushref evddFalse.node) = ({ s with values := N.2 } : EvddState K).pushref evddTrueNode := by
    unfold EvddState.popref makenodeState EvddState.pushref
    rfl
  dsimp only
  rw [hend]
  have hpush : Evolves True T { s with values := N.2 }
      (({ s with values := N.2 } : EvddState K).pushref evddTrueNode) := .pushref h₁.table _
  exact ⟨h₁.pushref (Or.inl rfl), hc.stable hs (.of_nodes rfl rfl) hnext.ext.means,
    e₁.trans hpush, ⟨Or.inl rfl, ValueTable.valid_zero _⟩, (0, .leaf),
    ⟨weight_zero _ t, .leaf⟩, .zero hz.1 hz.2⟩

/-- `evdd_normalize_node` returns an edge with the function of the node, unless it runs out of
nodes. By induction on the rounds. -/
theorem evddNormalizeNode_sound (hT : LawfulNormalize T) (hX : ExactField T t)
    (hN : Normalizing T t factor) (fuel : ℕ) {node : ℕ} {memo : EvddNormMemo} {s : EvddState K}
    {τ : WTree K} {r : EVDD × EvddNormMemo × EvddState K} (hs : Consistent T s)
    (hc : CacheSound T ops s) (hm : MemoSound s t factor memo)
    (h0 : node ≠ evddTrueNode) (hn : s.Held node)
    (hτ : s.Denotes t ⟨node, evddValueZero⟩ (0, τ)) (hcl : τ.Guarded)
    (hr : evddNormalizeNode T E fuel node (memo, s) = some r)
    (hroom : r.2.2.nodenums = s.nodenums) : NormalizeSound T ops t factor (1, τ) s r := by
  induction fuel generalizing node memo s τ r with
  | zero => simp [evddNormalizeNode] at hr
  | succ fuel ih =>
    have hframe := evddNormalizeNode_frame hT (fuel + 1) hs.table hr
    cases evddNormalizeNode_cases hr with
    | const const result => exact absurd const h0
    | memo inner e found result =>
      subst result
      obtain ⟨hheld, hhandle, τ', w, hτ', hw, hnorm⟩ := hm node e found
      obtain rfl : τ' = τ := congrArg Prod.snd (hτ'.unique hτ)
      exact ⟨hs, hc, hm, hhandle, Or.inl rfl, w, hw, hnorm⟩
    | visit inner fresh lowN child low high m lowRun highRun make result =>
      obtain ⟨⟨-, hunf⟩, hord⟩ := hτ
      cases hunf with
      | leaf => exact absurd rfl h0
      | @node _ lowN' highN level wLow wHigh x y tl th _ key hx hy below above =>
      obtain rfl : lowN' = lowN := by
        rw [key] at child
        exact Option.some.inj child
      have hhigh : (s.key node).high = highN := congrArg EvddKey.high key
      rw [hhigh] at highRun
      have hsucc : s.succ node = [lowN', highN] := by rw [EvddState.succ, key]
      have hnl := held_child hs.table hs.graph (Or.inr hn) (show lowN' ∈ s.succ node by simp [hsucc])
      have hnh := held_child hs.table hs.graph (Or.inr hn) (show highN ∈ s.succ node by simp [hsucc])
      have hwl : ∀ {u}, Evolves True T s u → u.values.weight t (u.key node).wLow = some x := by
        intro u hu
        rw [hu.keeps.key node hn, key]
        exact (hu.values hs.values).ext.weight hx
      have hwh : ∀ {u}, Evolves True T s u → u.values.weight t (u.key node).wHigh = some y := by
        intro u hu
        rw [hu.keeps.key node hn, key]
        exact (hu.values hs.values).ext.weight hy
      -- the states one after the other
      have hlf := normalizeEdge_frame hs.table (fun u hi hu => (hu.valid hi node).1)
        (evddNormalizeNode_frame hT fuel hs.table) lowRun
      have p₁ : Evolves True T low.2.2 (low.2.2.pushref low.1.node) := .pushref hlf.evolves.inv _
      have e₁ := hlf.evolves.trans p₁
      have hhf := normalizeEdge_frame p₁.inv (fun u hi hu => (hu.valid hi node).2)
        (evddNormalizeNode_frame hT fuel p₁.inv) highRun
      have p₂ : Evolves True T high.2.2 (high.2.2.pushref high.1.node) := .pushref hhf.evolves.inv _
      have e₂ := hhf.evolves.trans p₂
      have hlevel : (high.2.2.pushref high.1.node).key node = s.key node :=
        (e₁.trans e₂).keeps.key node hn
      have hM : level ≤ evddMaxlevel := (hord.1.trans_le (WTree.topLevel_le hord.2.2.1)).le
      rw [hlevel, congrArg EvddKey.level key] at make
      have hmk := evddMakenode_call (E := E) hT p₂.inv low.1 high.1 fun _ => Nat.lt_succ_of_le hM
      have hmspec := evddMakenode_spec T E p₂.inv low.1 high.1 (fun _ => Nat.lt_succ_of_le hM) rfl rfl
      rw [← make] at hmk hmspec
      -- no step ran out of nodes
      have hroom' : m.2.nodenums = s.nodenums := by
        rw [result] at hroom
        exact hroom
      have k₁ := hlf.evolves.keeps.nodenums
      have k₂ := (p₁.trans hhf.evolves).keeps.nodenums
      have k₃ := (p₂.trans hmk.evolves).keeps.nodenums
      have hk : (high.2.2.pushref high.1.node).nodenums = high.2.2.nodenums := rfl
      have hk' : (low.2.2.pushref low.1.node).nodenums = low.2.2.nodenums := rfl
      have hpush : CacheStable low.2.2 (low.2.2.pushref low.1.node) := .of_nodes rfl rfl
      have below₀ : s.Denotes t ⟨lowN', evddValueZero⟩ (0, tl) :=
        EvddState.denotes_node.mpr ⟨below, hord.2.2.1⟩
      have above₀ : s.Denotes t ⟨highN, evddValueZero⟩ (0, th) :=
        EvddState.denotes_node.mpr ⟨above, hord.2.2.2⟩
      have hl := normalizeEdge_sound hT hX hN.toCommonFactor hs hc hm hnl below₀ (fun u => hwl)
        (fun h => ih hs hc hm h (hnl.resolve_left h) below₀ hcl.2.1) lowRun (by omega)
      have s₁ := hl.consistent.pushref hl.handle.isNode
      have c₁ := hl.cache.stable hl.consistent hpush fun _ _ _ => rfl
      have m₁ := hl.memo.evolves hl.consistent p₁
      have hnh₁ := e₁.held hnh
      have above₁ := (e₁.denotes_iff hs ⟨hnh, ValueTable.valid_zero _⟩).mpr above₀
      have hh := normalizeEdge_sound hT hX hN.toCommonFactor s₁ c₁ m₁ hnh₁ above₁
        (fun u hu => hwh (e₁.trans hu))
        (fun h => ih s₁ c₁ m₁ h (hnh₁.resolve_left h) above₁ hcl.2.2) highRun (by omega)
      have hl₁ := p₁.handle hl.consistent hl.handle
      have hl₂ := hhf.evolves.handle s₁ hl₁
      obtain ⟨u, hu, hnu⟩ := hl.result
      obtain ⟨v, hv, hnv⟩ := hh.result
      have hu₂ := (hhf.evolves.denotes_iff s₁ hl₁).mpr (EvddState.denotes_pushref.mpr hu)
      -- the state from which the visit ends, and what the memo still holds there
      obtain ⟨b, hb, hmb, hvis⟩ : ∃ b, Consistent T b ∧ MemoSound b t factor high.2.1 ∧
          Visited T ops t factor level u v b m.1 ((m.2.popref 2).pushref m.1.node) := by
        by_cases hne : u.1 ≠ 0 ∨ v.1 ≠ 0
        · have hstack : ∃ n, high.2.2.evddrefstack = n :: high.2.2.evddrefstack.tail ∧
              (n = low.1.node ∨ n = high.1.node) := by
            rcases hh.stack with h | ⟨l, h, -⟩ <;> rw [h]
            · exact ⟨_, rfl, Or.inl rfl⟩
            · exact ⟨_, rfl, Or.inr rfl⟩
          exact ⟨_, hh.consistent, hh.memo, visit_sound hT hX hN hh.consistent hh.cache hl₂ hh.handle
            hu₂ hv hne hM hstack make (by omega)⟩
        · have hz : u.1 = 0 ∧ v.1 = 0 := by tauto
          have hleaf : th = .leaf := hcl.1 ((WTree.zero_node_iff hord).mpr ⟨fun a => by
            rw [← hnu.val, WEdge.val, hz.1, zero_mul], fun a => by
            rw [← hnv.val, WEdge.val, hz.2, zero_mul]⟩)
          have hconst : highN = evddTrueNode := by
            rw [hleaf] at above
            generalize highN = k at above
            cases above
            rfl
          rw [normalizeEdge, if_pos hconst] at highRun
          obtain rfl := Option.some.inj highRun
          exact ⟨_, hl.consistent, hl.memo, visit_zero hT hX hN hl.consistent hl.cache hu
            (EvddState.denotes_pushref.mp hv) hz make⟩
      obtain ⟨w, hedge, hw⟩ := hvis.result
      have hnorm := hnu.make hN.toCommonFactor hord hnv hw
      have hτ₀ : s.Denotes t ⟨node, evddValueZero⟩ (0, .node level x tl y th) :=
        EvddState.denotes_node.mpr ⟨.node inner key hx hy below above, hord⟩
      have hsuf : s.evddrefstack <:+ (high.1.node :: high.2.2.evddrefstack).drop 2 :=
        visit_suffix hlf.refstack hhf.refstack
      subst result
      refine ⟨hvis.consistent, hvis.cache, fun n e hne => ?_, hvis.handle, Or.inr ⟨_, rfl, ?_⟩, w,
        ⟨hedge, hnorm.ordered⟩, hnorm⟩
      · by_cases hnn : n = node
        · subst hnn
          have he : Function.update high.2.1 n (some m.1) n = some e := hne
          rw [Function.update_self] at he
          obtain rfl := Option.some.inj he
          refine ⟨hframe.evolves.keeps.held n hn, hvis.handle, _, w, ?_,
            ⟨hedge, hnorm.ordered⟩, hnorm⟩
          exact (hframe.evolves.denotes_iff hs ⟨Or.inr hn, ValueTable.valid_zero _⟩).mpr hτ₀
        · have he : Function.update high.2.1 node (some m.1) n = some e := hne
          rw [Function.update_of_ne hnn] at he
          exact (hmb n e he).evolves hb hvis.evolves
      · have hstack' : m.2.evddrefstack = high.1.node :: high.2.2.evddrefstack := hmk.refstack
        show s.evddrefstack <:+ m.2.evddrefstack.drop 2
        rw [hstack']
        exact hsuf

/-! ## Rounds -/

section Total

variable {P : Type*} [DecidableEq P] {T : ValueTypes P} {E : Policy P} {q : Prop} {s s' : EvddState P}

omit [DecidableEq P] in
/-- A held node stays as deep as it is. -/
theorem Keeps.deep (h : Keeps s s') {n k : ℕ} (hn : n = evddTrueNode ∨ s.Held n)
    (hk : s.Deep n k) : s'.Deep n k := by
  have hD : Untouched s s' fun n => (n = evddTrueNode ∨ s.Held n) ∧ ∃ k, s.Deep n k := by
    refine ⟨fun n hn h0 => h.key n (hn.1.resolve_left h0), fun n hn h0 m hm => ?_⟩
    obtain ⟨hh, k, hk⟩ := hn
    obtain ⟨low, kl, kh, hlow, hdl, hdh, -, -⟩ := hk.children h0
    have hdeep : ∃ k, s.Deep m k := by
      rw [EvddState.succ, hlow] at hm
      rcases List.mem_pair.mp hm with rfl | rfl
      · exact ⟨kl, hdl⟩
      · exact ⟨kh, hdh⟩
    obtain ⟨k', τ, hτ, hd⟩ := hdeep
    exact ⟨hτ.isNode.imp id ((hh.resolve_left h0).child hm), k', τ, hτ, hd⟩
  exact hD.deep ⟨hn, k, hk⟩ hk

/-- `evdd_normalize_node` returns if it has more rounds than the node is deep: the walk stays in
the diagram that it started on. -/
theorem evddNormalizeNode_total (hT : LawfulNormalize T) (fuel : ℕ) {node k : ℕ}
    {memo : EvddNormMemo} {s : EvddState P} (h : TableInv q s)
    (hn : node = evddTrueNode ∨ s.Held node) (hk : s.Deep node k) (hfuel : k < fuel) :
    ∃ r, evddNormalizeNode T E fuel node (memo, s) = some r := by
  induction fuel generalizing node k memo s with
  | zero => omega
  | succ fuel ih =>
    have hedge : ∀ {child k' : ℕ} {w : EvddState P → ValueId} {m s}, TableInv q s →
        (child = evddTrueNode ∨ s.Held child) → s.Deep child k' → k' < fuel →
        ∃ r, normalizeEdge T (evddNormalizeNode T E fuel) child w m s = some r := by
      intro child k' w memo s h hc hk' hlt
      rw [normalizeEdge]
      split
      · exact ⟨_, rfl⟩
      · obtain ⟨r, hr⟩ := ih h hc hk' hlt
        rw [hr]
        exact ⟨_, rfl⟩
    rw [evddNormalizeNode]
    split
    · exact ⟨_, rfl⟩
    rename_i h0
    cases memo node with
    | some e => exact ⟨_, rfl⟩
    | none =>
      obtain ⟨low, kl, kh, hlow, hdl, hdh, hlt, hlt'⟩ := hk.children h0
      have hheld := hn.resolve_left h0
      have hsucc : s.succ node = [low, (s.key node).high] := by rw [EvddState.succ, hlow]
      have hnl : low = evddTrueNode ∨ s.Held low := by
        obtain ⟨τ, hτ, -⟩ := hdl
        exact hτ.isNode.imp id (hheld.child (by simp [hsucc]))
      have hnh : (s.key node).high = evddTrueNode ∨ s.Held (s.key node).high := by
        obtain ⟨τ, hτ, -⟩ := hdh
        exact hτ.isNode.imp id (hheld.child (by simp [hsucc]))
      obtain ⟨l, hl⟩ : ∃ r, normalizeEdge T (evddNormalizeNode T E fuel) low
          (fun s => (s.evddnodes node).wLow) memo s = some r := hedge h hnl hdl (by omega)
      have hlf := normalizeEdge_frame h (w := fun s => (s.evddnodes node).wLow)
        (fun u hi hu => (hu.valid hi node).1) (evddNormalizeNode_frame hT fuel h) hl
      have p : Evolves q T l.2.2 (l.2.2.pushref l.1.node) := .pushref hlf.evolves.inv _
      have e := hlf.evolves.trans p
      obtain ⟨r, hr⟩ := hedge (w := fun s => (s.evddnodes node).wHigh) (m := l.2.1) p.inv
        (e.held hnh) (e.keeps.deep hnh hdh) (by omega)
      have hlow' : (s.evddnodes node).low = some low := hlow
      have hhigh' : (s.evddnodes node).high = (s.key node).high := rfl
      simp only [hlow', hhigh', hl, hr, Option.bind_eq_bind, Option.bind_some]
      exact ⟨_, rfl⟩

end Total

end MoToBuddy.Evdd
