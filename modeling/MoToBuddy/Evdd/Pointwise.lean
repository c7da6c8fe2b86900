import MoToBuddy.Evdd.NormalizeLaws
import MoToBuddy.Evdd.Session

/-!
# Functions over sessions (`evdd_kernel.c`, `evdd_op.c`)

Whatever calls a session has made, as long as they pass in edges that exist and none of them
ran out of nodes: `evdd_apply` is the pointwise operation, and `evdd_normalize` keeps the
function of its root. When the table collects or grows has no influence on that.
-/

namespace MoToBuddy.Evdd

open Weighted Chained Marking

variable {K : Type*} [Field K] [DecidableEq K] {T : ValueTypes K} {E : Policy K}
  {ops : EvddApplyOps K} {t op : ℕ} {factor g : K → K → K} {s s' : EvddState K} {a b : EVDD}

/-! ## The two calls -/

omit [Field K] [DecidableEq K] in
theorem EvddState.IsNode.lt {q : Prop} (h : TableInv q s) {n : ℕ} (hn : s.IsNode n) : n < s.evddnodesize := by
  have hsize := h.size
  rcases hn with rfl | hl
  · omega
  · exact h.live_lt hl

omit [Field K] [DecidableEq K] in
theorem EvddState.isNode_iff {n : ℕ} : s.IsNode n ↔ ¬ (n ≠ evddTrueNode ∧ s.isFree n = true) := by
  by_cases h0 : n = evddTrueNode
  · simp [EvddState.IsNode, h0]
  · rw [isFree_eq h0]
    simp [EvddState.IsNode, h0]

omit [Field K] in
/-- The state in which `evdd_apply` starts to walk. -/
theorem Consistent.push₂ (hs : Consistent T s) (ha : s.IsNode a.node) (hb : s.IsNode b.node)
    (hva : s.values.Valid a.w) (hvb : s.values.Valid b.w) :
    Consistent T ((s.pushref a.node).pushref b.node) ∧
      ((s.pushref a.node).pushref b.node).Handle a ∧
      ((s.pushref a.node).pushref b.node).Handle b := by
  have h₁ := hs.pushref ha
  have p : Evolves True T (s.pushref a.node) ((s.pushref a.node).pushref b.node) :=
    .pushref h₁.table _
  exact ⟨h₁.pushref hb, p.handle h₁ ⟨held_pushref ha, hva⟩, held_pushref (s := s.pushref a.node) hb,
    hvb⟩

omit [Field K] in
theorem evddApply_consistent (hT : LawfulNormalize T) (hop : LawfulOp T (ops op))
    (hs : Consistent T s) (hva : s.values.Valid a.w) (hvb : s.values.Valid b.w)
    {r : EVDD × EvddState K} (hr : evddApply T E ops s a b op = some r) : Consistent T r.2 := by
  obtain ⟨hf, hg⟩ := evddApply_call hT hop hs.table hr
  exact ⟨hf.inv, (hf.values hs.values).inv, (hg hs.graph).1,
    (hf.weight hs.values hs.weight (pair_forall hva hvb)).1⟩

/-- `evdd_apply` computes the operation pointwise and keeps the cache sound. -/
theorem evddApply_sound (hT : LawfulNormalize T) (hop : LawfulOp T (ops op))
    (hapart : ops.Apart) (hs : Consistent T s)
    (hc : CacheSound T ops s) (hva : s.values.Valid a.w) (hvb : s.values.Valid b.w)
    {r : EVDD × EvddState K} (hr : evddApply T E ops s a b op = some r)
    (hroom : r.2.nodenums = s.nodenums) : CacheSound T ops r.2 ∧
      (op ≠ 0 → s.IsNode a.node → s.IsNode b.node → Delivers T (ops op) s a b r) := by
  have herror : ∀ e, CacheSound T ops (s.error e) := fun e =>
    hc.stable hs (.of_nodes rfl rfl) fun _ _ _ => rfl
  rw [evddApply, hs.table.running.1, hs.table.running.2] at hr
  simp only [Bool.not_true, Bool.false_eq_true, if_false] at hr
  split at hr
  · rename_i h0
    obtain rfl := Option.some.inj hr
    exact ⟨herror _, fun h => absurd h0 h⟩
  split at hr
  · rename_i hill
    obtain rfl := Option.some.inj hr
    refine ⟨herror _, fun _ ha hb => ?_⟩
    have hla := ha.lt hs.table
    have hlb := hb.lt hs.table
    rcases hill with h | h | h | h
    · omega
    · exact absurd h (EvddState.isNode_iff.mp ha)
    · omega
    · exact absurd h (EvddState.isNode_iff.mp hb)
  · rename_i hill
    push Not at hill
    have ha : s.IsNode a.node := EvddState.isNode_iff.mpr fun h => absurd h.2 (by simpa using hill.2.1 h.1)
    have hb : s.IsNode b.node := EvddState.isNode_iff.mpr fun h => absurd h.2 (by simpa using hill.2.2.2 h.1)
    simp only [Option.bind_eq_bind, Option.bind_eq_some_iff] at hr
    obtain ⟨out, hout, hr⟩ := hr
    obtain rfl := Option.some.inj hr
    obtain ⟨h₂, ha₂, hb₂⟩ := hs.push₂ ha hb hva hvb
    have hc₁ : CacheSound T ops ((s.pushref a.node).pushref b.node) :=
      hc.stable hs (.of_nodes rfl rfl) fun _ _ _ => rfl
    obtain ⟨hc₂, hd⟩ := evddApplyRec_sound hT hop hapart _ h₂ hc₁ ha₂ hb₂ hout hroom
    have hf := evddApplyRec_call hT hop _ h₂.table hout
    have h₃ := (hf.consistent h₂ (pair_forall ha₂ hb₂)).1
    refine ⟨hc₂.stable h₃ (.of_nodes rfl rfl) fun _ _ _ => rfl,
      fun _ _ _ t g factor hm wa wb hwa hwb => ?_⟩
    obtain ⟨w, hw, happ⟩ := hd t g factor hm wa wb
      (EvddState.denotes_pushref.mpr (EvddState.denotes_pushref.mpr hwa))
      (EvddState.denotes_pushref.mpr (EvddState.denotes_pushref.mpr hwb))
    exact ⟨w, EvddState.denotes_restack.mpr hw, happ⟩

omit [Field K] in
/-- `evdd_apply` returns. -/
theorem evddApply_total (hT : LawfulNormalize T) (hop : LawfulOp T (ops op)) (hs : Consistent T s)
    (hva : s.values.Valid a.w) (hvb : s.values.Valid b.w) :
    ∃ r, evddApply T E ops s a b op = some r := by
  rw [evddApply, hs.table.running.1, hs.table.running.2]
  simp only [Bool.not_true, Bool.false_eq_true, if_false]
  split
  · exact ⟨_, rfl⟩
  split
  · exact ⟨_, rfl⟩
  · rename_i hill
    push Not at hill
    have ha : s.IsNode a.node := EvddState.isNode_iff.mpr fun h => absurd h.2 (by simpa using hill.2.1 h.1)
    have hb : s.IsNode b.node := EvddState.isNode_iff.mpr fun h => absurd h.2 (by simpa using hill.2.2.2 h.1)
    obtain ⟨h₂, ha₂, hb₂⟩ := hs.push₂ ha hb hva hvb
    obtain ⟨τa, hτa, hda⟩ := h₂.graph.exists_unfolds ha₂.isNode
    obtain ⟨τb, hτb, hdb⟩ := h₂.graph.exists_unfolds hb₂.isNode
    have hda' : τa.depth ≤ s.evddproduced := hda
    have hdb' : τb.depth ≤ s.evddproduced := hdb
    obtain ⟨r, hr⟩ := evddApplyRec_total (E := E) hT hop (2 * s.evddproduced + 1) h₂ ha₂ hb₂
      ⟨τa, hτa, rfl⟩ ⟨τb, hτb, rfl⟩ (by omega)
    rw [hr]
    exact ⟨_, rfl⟩

/-- `evdd_normalize` keeps the function of a guarded diagram, and the cache sound. -/
theorem evddNormalize_sound (hT : LawfulNormalize T) (hX : ExactField T t)
    (hN : Normalizing T t factor) (hs : Consistent T s) (hc : CacheSound T ops s) {root : EVDD}
    {v : WEdge K} (hroot : s.Denotes t root v) (hcl : v.2.Guarded) {r : EVDD × EvddState K}
    (hr : evddNormalize T E s root = some r) (hroom : r.2.nodenums = s.nodenums) :
    Consistent T r.2 ∧ CacheSound T ops r.2 ∧
      ∃ w, r.2.Denotes t r.1 w ∧ NormalForm evddMaxlevel factor v w := by
  have hn := hroot.1.2.isNode
  rw [evddNormalize, hs.table.running.1] at hr
  simp only [Bool.not_true, Bool.false_eq_true, if_false] at hr
  rw [if_neg (not_or.mpr ⟨(hn.lt hs.table).not_ge, EvddState.isNode_iff.mp hn⟩)] at hr
  obtain ⟨c, τ⟩ := v
  split at hr
  · rename_i h0
    obtain rfl := Option.some.inj hr
    obtain rfl : τ = .leaf := (hroot.const h0).2
    exact ⟨hs, hc, _, hroot, .const c⟩
  · rename_i h0
    simp only [Option.bind_eq_bind, Option.bind_eq_some_iff] at hr
    obtain ⟨out, hout, hr⟩ := hr
    obtain rfl := Option.some.inj hr
    have p₁ : Evolves True T s (s.pushref root.node) := .pushref hs.table _
    have h₁ := hs.pushref hn
    have hc₁ : CacheSound T ops (s.pushref root.node) :=
      hc.stable hs (.of_nodes rfl rfl) fun _ _ _ => rfl
    have hheld : (s.pushref root.node).Held root.node := (held_pushref hn).resolve_left h0
    have hτ : (s.pushref root.node).Denotes t ⟨root.node, evddValueZero⟩ (0, τ) :=
      EvddState.denotes_pushref.mpr (EvddState.denotes_node.mpr ⟨hroot.1.2, hroot.2⟩)
    have hsound := evddNormalizeNode_sound hT hX hN _ h₁ hc₁ (fun n e he => by simp at he) h0 hheld
      hτ hcl hout hroom
    have hf := evddNormalizeNode_frame hT _ p₁.inv hout
    obtain ⟨u, hu, hnorm⟩ := hsound.result
    have h₂ := hsound.consistent
    have hext := (evddValueMul_algebraic h₂.values root.w out.1.w).ext
    have hw := ((p₁.trans hf.evolves).values hs.values).ext.weight hroot.1.1
    have hmul := weight_mul hX h₂.values hw hu.1.1
    have hu' := (h₂.denotes_setValues hext.ext hu.1.2.isNode (valid_of_weight hu.1.1)).mpr hu
    set V := (evddValueMul T out.2.2.values root.w out.1.w).2
    have h₃ : Consistent T { out.2.2 with values := V } :=
      ⟨h₂.table.setValues V, hext.inv, h₂.graph.setValues V, h₂.weight.of_values hext.ext⟩
    have hc₃ : CacheSound T ops { out.2.2 with values := V } :=
      hsound.cache.stable h₂ (.of_nodes rfl rfl) hext.ext.means
    refine ⟨h₃.restack fun n hn => h₃.graph.stack n (hf.refstack.subset (List.mem_cons_of_mem _ hn)),
      hc₃.stable h₃ (.of_nodes rfl rfl) fun _ _ _ => rfl, (c * u.1, u.2), ?_, hnorm.smul hN.toCommonFactor c⟩
    exact EvddState.denotes_restack.mpr ⟨⟨hmul, hu'.1.2⟩, hu.2⟩

omit [Field K] in
/-- `evdd_normalize` returns. -/
theorem evddNormalize_total (hT : LawfulNormalize T) (hs : Consistent T s) (root : EVDD) :
    ∃ r, evddNormalize T E s root = some r := by
  rw [evddNormalize, hs.table.running.1]
  simp only [Bool.not_true, Bool.false_eq_true, if_false]
  split
  · exact ⟨_, rfl⟩
  split
  · exact ⟨_, rfl⟩
  · rename_i hill h0
    have hn : s.IsNode root.node := EvddState.isNode_iff.mpr (not_or.mp hill).2
    have h₁ := hs.pushref hn
    obtain ⟨τ, hτ, hd⟩ := h₁.graph.exists_unfolds hn
    have hd' : τ.depth ≤ s.evddproduced := hd
    obtain ⟨r, hr⟩ : ∃ r, evddNormalizeNode T E (s.evddproduced + 1) root.node
        (fun _ => none, s.pushref root.node) = some r :=
      evddNormalizeNode_total hT _ h₁.table (held_pushref hn) ⟨τ, hτ, rfl⟩ (by omega)
    rw [hr]
    exact ⟨_, rfl⟩

/-! ## Sessions -/

/-- Callers that pass in nodes that exist and valid weights. The operands of `evdd_makenode_raw`
are protected, and a node of a diagram to be normalised has the terminal on its high side if its
function is zero. -/
def Careful (T : ValueTypes K) (s : EvddState K) (c : EvddCall K) : Prop :=
  ValidWeights s c ∧ c.level ≤ evddMaxlevel ∧
    match c with
    | .makenode _ low high => s.IsNode low.node ∧ s.IsNode high.node
    | .makenodeRaw _ low high => (low.node = evddTrueNode ∨ s.Held low.node) ∧
      (high.node = evddTrueNode ∨ s.Held high.node)
    | .normalize root => ∃ t factor v, ExactField T t ∧ Normalizing T t factor ∧
      s.Denotes t root v ∧ v.2.Guarded
    | _ => True

omit [Field K] [DecidableEq K] in
theorem evddChangeref_nodenums {count : EvddState K → ℕ → EvddState K}
    {value : ValueTable K → ValueId → ValueTable K} (root : EVDD)
    (hcount : ∀ n, (count s n).errors = s.errors) :
    s.nodenums ≤ (evddChangeref count value s root).2.nodenums := by
  have herror : s.nodenums ≤ (s.error .illbdd).nodenums := (Keeps.error s .illbdd).nodenums
  rw [evddChangeref]
  split
  · exact le_rfl
  split
  · exact herror
  split
  · exact herror
  · simp only [EvddState.nodenums, hcount]
    exact le_rfl

omit [Field K] in
/-- Reports of exhaustion add up. -/
theorem evddCall_nodenums (hT : LawfulNormalize T) (hops : ∀ op, LawfulOp T (ops op))
    (h : TableInv True s) (hV : ValueInv T s.values) {c : EvddCall K}
    (hlevel : c.level ≤ evddMaxlevel) {r : EvddResult × EvddState K}
    (hr : evddCall T E ops s c = some r) : s.nodenums ≤ r.2.nodenums := by
  have hlt : c.level < 2 ^ 21 := Nat.lt_succ_of_le hlevel
  cases c with
  | valueIntern value type =>
    obtain rfl := Option.some.inj hr
    exact le_rfl
  | valueAddref id =>
    obtain rfl := Option.some.inj hr
    exact le_rfl
  | valueDelref id =>
    obtain rfl := Option.some.inj hr
    exact le_rfl
  | makenode level low high =>
    obtain rfl := Option.some.inj hr
    exact (evddMakenode_call hT h low high fun _ => hlt).keeps.nodenums
  | makenodeRaw level low high =>
    obtain rfl := Option.some.inj hr
    exact (evddMakenodeRaw_frame h low high fun _ => hlt).keeps.nodenums
  | normalize root =>
    obtain ⟨out, hout, rfl⟩ := Option.map_eq_some_iff.mp hr
    exact (evddNormalize_frame hT h hout).keeps.nodenums
  | apply a b op =>
    obtain ⟨out, hout, rfl⟩ := Option.map_eq_some_iff.mp hr
    exact (evddApply_call hT (hops op) h hout).1.keeps.nodenums
  | addref root =>
    obtain rfl := Option.some.inj hr
    refine evddChangeref_nodenums root fun n => ?_
    rw [evddIncref]
    split <;> rfl
  | delref root =>
    obtain rfl := Option.some.inj hr
    refine evddChangeref_nodenums root fun n => ?_
    rw [evddDecref]
    split <;> rfl
  | gbc =>
    obtain rfl := Option.some.inj hr
    exact (evddGbc_spec h).2.keeps.nodenums
  | valueGbc =>
    obtain rfl := Option.some.inj hr
    by_cases hst : s.evddrefstack = []
    · have hc := evddValueGbc_spec h hV hst
      exact (hc.collected h).keeps.nodenums
    · rw [evddValueGbc_busy hst]
      exact (Keeps.error s .op).nodenums

/-- What one call of a careful caller keeps, if it does not run out of nodes. -/
theorem evddCall_sound (hT : LawfulNormalize T) (hops : ∀ op, LawfulOp T (ops op))
    (hapart : ops.Apart)
    (hs : Consistent T s) (hc : CacheSound T ops s) {c : EvddCall K} (hok : Careful T s c)
    {r : EvddResult × EvddState K} (hr : evddCall T E ops s c = some r)
    (hroom : r.2.nodenums = s.nodenums) : Consistent T r.2 ∧ CacheSound T ops r.2 := by
  obtain ⟨hvalid, hlevel, hnode⟩ := hok
  have hspec := evddCall_spec (q := True) hT hops hs.table hs.values
    (fun _ => Nat.lt_succ_of_le hlevel) hr
  have hweight := (hspec.weight hs.weight hvalid).1
  have hflush : (∀ i, r.2.evddApplycache.isValid i = false) → CacheSound T ops r.2 :=
    fun h i hi => absurd ((h i).symm.trans hi) Bool.false_ne_true
  suffices h : GraphInv r.2 ∧ CacheSound T ops r.2 from
    ⟨⟨hspec.inv, hspec.values, h.1, hweight⟩, h.2⟩
  cases c with
  | valueIntern value type =>
    obtain rfl := Option.some.inj hr
    have hext := evddValueIntern_extends hs.values value type
    exact ⟨hs.graph.setValues _, hc.stable hs (.of_nodes rfl rfl) hext.ext.means⟩
  | valueAddref id =>
    obtain rfl := Option.some.inj hr
    obtain ⟨-, hsame⟩ := evddValueAddref_recounts (T := T) _ hs.values id
    exact ⟨hs.graph.setValues _, hc.stable hs (.of_nodes rfl rfl) hsame.means⟩
  | valueDelref id =>
    obtain rfl := Option.some.inj hr
    obtain ⟨-, hsame⟩ := evddValueDelref_recounts (T := T) _ hs.values id
    exact ⟨hs.graph.setValues _, hc.stable hs (.of_nodes rfl rfl) hsame.means⟩
  | makenode level low high =>
    obtain rfl := Option.some.inj hr
    have hlt : level < 2 ^ 21 := Nat.lt_succ_of_le hlevel
    have hm := evddMakenode_spec T E hs.table low high (fun _ => hlt) rfl rfl
    have hcall := evddMakenode_call (E := E) hT hs.table low high fun _ => hlt
    exact ⟨(hm.graph hs.graph hnode.1 hnode.2).1,
      hc.stable hs hm.frame.cache (hcall.values hs.values).ext.means⟩
  | makenodeRaw level low high =>
    obtain rfl := Option.some.inj hr
    have hlt : level < 2 ^ 21 := Nat.lt_succ_of_le hlevel
    obtain ⟨hf, -, -, hg⟩ := evddMakenodeRaw_spec T E hs.table low high fun _ => hlt
    have hcall := evddMakenodeRaw_frame (T := T) (E := E) hs.table low high fun _ => hlt
    have hsafe : ∀ n, (n = evddTrueNode ∨ s.Held n) → Safe E s n := fun n hn =>
      ⟨hn.imp id EvddState.Held.live, fun _ => hn⟩
    exact ⟨hg hs.graph (hsafe _ hnode.1) (hsafe _ hnode.2),
      hc.stable hs hf.cache (hcall.values hs.values).ext.means⟩
  | normalize root =>
    obtain ⟨out, hout, rfl⟩ := Option.map_eq_some_iff.mp hr
    obtain ⟨t, factor, v, hX, hN, hroot, hcl⟩ := hnode
    obtain ⟨hs', hc', -⟩ := evddNormalize_sound hT hX hN hs hc hroot hcl hout hroom
    exact ⟨hs'.graph, hc'⟩
  | apply a b op =>
    obtain ⟨out, hout, rfl⟩ := Option.map_eq_some_iff.mp hr
    have hva := hvalid a (by simp [EvddCall.operands])
    have hvb := hvalid b (by simp [EvddCall.operands])
    exact ⟨(evddApply_consistent hT (hops op) hs hva hvb hout).graph,
      (evddApply_sound hT (hops op) hapart hs hc hva hvb hout hroom).1⟩
  | addref root =>
    obtain rfl := Option.some.inj hr
    have h := evddAddref_spec (T := T) hs.table root
    refine ⟨h.graph hs.graph, hc.stable hs (Or.inr ⟨h.applycache, fun n hn => ?_⟩)
      (h.values hs.values).2.means⟩
    exact ⟨(EvddState.live_congr (h.key n)).trans hn, h.key n⟩
  | delref root =>
    obtain rfl := Option.some.inj hr
    have h := evddDelref_spec (T := T) hs.table root
    refine ⟨h.graph hs.graph, hc.stable hs (Or.inr ⟨h.applycache, fun n hn => ?_⟩)
      (h.values hs.values).2.means⟩
    exact ⟨(EvddState.live_congr (h.key n)).trans hn, h.key n⟩
  | gbc =>
    obtain rfl := Option.some.inj hr
    obtain ⟨-, hcol⟩ := evddGbc_spec hs.table
    exact ⟨hs.graph.collected hcol, hflush hcol.cache⟩
  | valueGbc =>
    obtain rfl := Option.some.inj hr
    by_cases hst : s.evddrefstack = []
    · have hcol := evddValueGbc_spec hs.table hs.values hst
      generalize evddValueGbc T s = r at hcol hflush ⊢
      exact ⟨hcol.graph hs.table hs.graph, hflush (hcol.collected hs.table).cache⟩
    · rw [evddValueGbc_busy hst]
      exact ⟨hs.graph.error _, hc.stable hs (.of_nodes rfl rfl) fun _ _ _ => rfl⟩

/-- The table stays a table, and reports of exhaustion add up. -/
theorem evddRun_nodenums (hT : LawfulNormalize T)
    (hops : ∀ op, LawfulOp T (ops op)) (h : TableInv True s) (hV : ValueInv T s.values)
    (hrun : EvddRun T ops (Careful T) s s') :
    (TableInv True s' ∧ ValueInv T s'.values) ∧ s.nodenums ≤ s'.nodenums := by
  induction hrun with
  | refl => exact ⟨⟨h, hV⟩, le_rfl⟩
  | tail _ hstep ih =>
    obtain ⟨⟨ht, hV⟩, hle⟩ := ih
    obtain ⟨E, c, r, hok, hr⟩ := hstep
    have hspec := evddCall_spec (q := True) hT hops ht hV (fun _ => Nat.lt_succ_of_le hok.2.1) hr
    exact ⟨⟨hspec.inv, hspec.values⟩, hle.trans (evddCall_nodenums hT hops ht hV hok.2.1 hr)⟩

/-- A session that has not run out of nodes is consistent, and its cache is sound. -/
theorem evddRun_sound (hT : LawfulNormalize T) (hops : ∀ op, LawfulOp T (ops op))
    (hapart : ops.Apart)
    (hs : Consistent T s) (hc : CacheSound T ops s) (hrun : EvddRun T ops (Careful T) s s')
    (hroom : s'.nodenums = s.nodenums) : Consistent T s' ∧ CacheSound T ops s' := by
  induction hrun with
  | refl => exact ⟨hs, hc⟩
  | tail hrun hstep ih =>
    obtain ⟨⟨ht, hV⟩, hle⟩ := evddRun_nodenums hT hops hs.table hs.values hrun
    obtain ⟨E, c, r, hok, hr⟩ := hstep
    -- reports of exhaustion only add up, so that neither the run nor the call made one
    have hle' := evddCall_nodenums hT hops ht hV hok.2.1 hr
    dsimp only at hle'
    obtain ⟨hs₁, hc₁⟩ := ih (by omega)
    exact evddCall_sound hT hops hapart hs₁ hc₁ hok hr (by dsimp only; omega)

end MoToBuddy.Evdd
