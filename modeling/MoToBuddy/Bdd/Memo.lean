import MoToBuddy.Bdd.Apply
import MoToBuddy.Lib.Cofactor

/-!
# Remembered results

What an operation promises about its result may depend on the trees of its operands, not only on
their functions. `TreeEntry` is an entry that holds such a result, and `TaggedEntry` one that does
if it is under the tag of a request. `Memoizes` says that the entries under one tag of a cache are
such, and `Memoizes.returns` is the rule for a recursion that looks there first. `boolTree` is the
tree of a plain diagram.
-/

namespace MoToBuddy.Bdd

open Decision

variable {P : Type*} {D : MtbddDomain P} {S : Setting P} {s s' : BddState P}

/-! ## Plain trees -/

/-- The value of a leaf. -/
def Leaf.truth : Leaf P → Bool
  | .const b => b
  | .value _ _ => false

/-- The tree of a plain diagram. -/
def boolTree (t : DTree (Leaf P)) : DTree Bool := t.map Leaf.truth

@[simp] theorem boolTree_const (b : Bool) :
    boolTree (.leaf (.const b) : DTree (Leaf P)) = .leaf b := rfl

@[simp] theorem boolTree_node (level : ℕ) (low high : DTree (Leaf P)) :
    boolTree (.node level low high) = .node level (boolTree low) (boolTree high) := rfl

@[simp] theorem eval_boolTree (t : DTree (Leaf P)) (x : ℕ → Bool) :
    (boolTree t).eval x = evalBool t x := by
  unfold boolTree evalBool
  rw [DTree.eval_map]
  cases t.eval x <;> rfl

@[simp] theorem above_boolTree {t : DTree (Leaf P)} {k : ℕ} :
    (boolTree t).Above k ↔ t.Above k := DTree.above_map _

@[simp] theorem sorted_boolTree {t : DTree (Leaf P)} {M : ℕ} :
    (boolTree t).Sorted M ↔ t.Sorted M := DTree.sorted_map _

theorem boolTree_cof (t : DTree (Leaf P)) (k : ℕ) (b : Bool) :
    boolTree (t.cof k b) = (boolTree t).cof k b := by
  cases t with
  | leaf l => rfl
  | node level low high =>
    rw [boolTree_node, DTree.cof_def, DTree.cof_def]
    split_ifs <;> rfl

theorem boolTree_inj {t u : DTree (Leaf P)} (ht : IsBool t) (hu : IsBool u)
    (h : boolTree t = boolTree u) : t = u := by
  induction t generalizing u with
  | leaf l =>
    cases u with
    | leaf l' =>
      cases l <;> cases l' <;> first
        | exact ht.elim
        | exact hu.elim
        | simpa using h
    | node level low high =>
      have hno : DTree.leaf l.truth = .node level (boolTree low) (boolTree high) := h
      exact absurd hno (by simp)
  | node level low high ihl ihh =>
    cases u with
    | leaf l =>
      have hno : DTree.node level (boolTree low) (boolTree high) = .leaf l.truth := h
      exact absurd hno (by simp)
    | node level' low' high' =>
      simp only [boolTree_node, DTree.node.injEq] at h
      rw [h.1, ihl ht.1 hu.1 h.2.1, ihh ht.2 hu.2 h.2.2]

theorem reduced_boolTree {t : DTree (Leaf P)} (h : t.Reduced) (hb : IsBool t) :
    (boolTree t).Reduced := by
  induction t with
  | leaf l => trivial
  | node level low high ihl ihh =>
    exact ⟨fun heq => h.1 (boolTree_inj hb.1 hb.2 heq), ihl h.2.1 hb.1, ihh h.2.2 hb.2⟩

/-- The node `0` is the one whose tree is the leaf `false`. -/
theorem Operand.eq_zero_iff {n : ℕ} {t : DTree (Leaf P)} (h : Operand S s n t) (hb : IsBool t) :
    n = 0 ↔ (boolTree t).isZero = true := by
  constructor
  · intro hn
    rw [h.const (b := false) hn]
    rfl
  · intro hz
    have hr := h.reads
    cases hr with
    | const b =>
      cases b with
      | false => rfl
      | true => exact absurd hz Bool.false_ne_true
    | terminal _ _ _ _ => exact hb.elim
    | node _ _ _ _ _ => exact absurd hz Bool.false_ne_true

/-! ## Entries -/

/-- The result `res` is in `Q`, for the trees of the nodes `args`. -/
def TreeEntry (D : MtbddDomain P) (s : BddState P) (args : List ℕ)
    (Q : List (DTree (Leaf P)) → Prop → DTree (Leaf P) → Prop) (res : ℕ) : Prop :=
  ∃ ts t, List.Forall₂ (s.Reads D) args ts ∧ s.Reads D res t ∧ Q ts s.Ok t

section

variable {args : List ℕ} {Q : List (DTree (Leaf P)) → Prop → DTree (Leaf P) → Prop} {res : ℕ}

theorem TreeEntry.stable (h : TreeEntry D s args Q res) (hQ : ∀ ts, Lasting (Q ts))
    (hsame : ∀ n, s.live n = true → SameNode D s s' n) (he : s'.Ok → s.Ok) :
    TreeEntry D s' args Q res := by
  obtain ⟨ts, t, hargs, hres, hq⟩ := h
  exact ⟨ts, t, hargs.imp fun _ _ hr => hr.stable hsame, hres.stable hsame, hQ ts _ _ _ he hq⟩

theorem TreeEntry.hit (h : TreeEntry D s args Q res) {ts : List (DTree (Leaf P))}
    (hargs : List.Forall₂ (s.Reads D) args ts) : ∃ t, s.Reads D res t ∧ Q ts s.Ok t := by
  obtain ⟨ts', t, hargs', hres, hq⟩ := h
  have huniq : Relator.RightUnique (s.Reads D) := fun _ _ _ h h' => h.unique h'
  exact ⟨t, hres, List.right_unique_forall₂' huniq hargs hargs' ▸ hq⟩

end

/-- The entries of a cache under a tag hold results in `Q`, and such results can be stored there,
as long as `ctx` holds. The operands are in the fields `a` and `b`. -/
structure Memoizes (S : Setting P) (k : CacheId) (ctx : BddState P → Prop) (tag : ℕ)
    (args : ℕ → ℕ → List ℕ) (Q : List (DTree (Leaf P)) → Prop → DTree (Leaf P) → Prop) :
    Prop where
  hit : ∀ s e, ctx s → S.cache s k e → e.c = tag → TreeEntry S.D s (args e.a e.b) Q e.res
  fill : ∀ s e, ctx s → e.c = tag → TreeEntry S.D s (args e.a e.b) Q e.res → S.cache s k e

/-- A recursion that looks for its result first. -/
theorem Memoizes.returns {k : CacheId} {ctx : BddState P → Prop} {tag : ℕ}
    {args : ℕ → ℕ → List ℕ} {Q : List (DTree (Leaf P)) → Prop → DTree (Leaf P) → Prop}
    (h : Memoizes S k ctx tag args Q) (hs : Inv S s)
    (hctx : ∀ s', Evo S.D s s' → ctx s') {ops : List ℕ} {ts : List (DTree (Leaf P))}
    (hops : ∀ s', Evo S.D s s' → List.Forall₂ (s'.Reads S.D) ops ts) {hash : UInt32}
    {hit : BddCacheData → Bool} {fill : BddCacheData → ℕ → BddCacheData}
    {body : BddState P → Option (ℕ × BddState P)}
    (hhit : ∀ e, hit e = true → e.c = tag ∧ args e.a e.b = ops)
    (hfill : ∀ e res, (fill e res).c = tag ∧ args (fill e res).a (fill e res).b = ops ∧
      (fill e res).res = res)
    (hbody : Returns S s (Q ts) (body s)) :
    Returns S s (Q ts) (memo k hash hit fill body s) := by
  refine memo_returns hs (fun e he hh => ?_) hbody fun s' e res t g he hres hq => ?_
  · obtain ⟨htag, hargs⟩ := hhit e hh
    have hentry := h.hit s e (hctx s (.refl s)) he htag
    rw [hargs] at hentry
    exact hentry.hit (hops s (.refl s))
  · obtain ⟨htag, hargs, hr⟩ := hfill e res
    refine h.fill s' _ (hctx s' he) htag ⟨ts, t, ?_, ?_, hq⟩
    · show List.Forall₂ _ (args (fill e res).a (fill e res).b) ts
      rw [hargs]
      exact hops s' he
    · show s'.Reads S.D (fill e res).res t
      rw [hr]
      exact hres

/-! ## Tags -/

/-- An entry under the tag of a request `i` holds a result in `Q`, for what the request means. -/
def TaggedEntry {ι α : Type*} (D : MtbddDomain P) (tag : ι → ℕ → Prop)
    (means : BddState P → ι → α → Prop) (args : ℕ → ℕ → List ℕ)
    (Q : ι → α → List (DTree (Leaf P)) → Prop → DTree (Leaf P) → Prop) (s : BddState P)
    (e : BddCacheData) : Prop :=
  ∀ i, tag i e.c → ∃ c, means s i c ∧ TreeEntry D s (args e.a e.b) (Q i c) e.res

section

variable {ι α : Type*} {tag : ι → ℕ → Prop} {means : BddState P → ι → α → Prop}
  {args : ℕ → ℕ → List ℕ} {Q : ι → α → List (DTree (Leaf P)) → Prop → DTree (Leaf P) → Prop}

theorem TaggedEntry.stable {e : BddCacheData} (h : TaggedEntry D tag means args Q s e)
    (hQ : ∀ i c ts, Lasting (Q i c ts)) (hmeans : ∀ i c, means s i c → means s' i c)
    (hsame : ∀ n, s.live n = true → SameNode D s s' n) (he : s'.Ok → s.Ok) :
    TaggedEntry D tag means args Q s' e := by
  intro i hi
  obtain ⟨c, hc, hentry⟩ := h i hi
  exact ⟨c, hmeans i c hc, hentry.stable (hQ i c) hsame he⟩

/-- A cache of such entries remembers the results of a request. -/
theorem TaggedEntry.memoizes {k : CacheId}
    (hit : ∀ s e, S.cache s k e → TaggedEntry S.D tag means args Q s e)
    (fill : ∀ s e i, tag i e.c → TaggedEntry S.D tag means args Q s e → S.cache s k e)
    (hinj : ∀ i j t, tag i t → tag j t → i = j)
    (huniq : ∀ s i c c', means s i c → means s i c' → c = c') {i : ι} {t : ℕ} (ht : tag i t)
    (c : α) : Memoizes S k (fun s => means s i c) t args (Q i c) := by
  refine ⟨fun s e hc he het => ?_, fun s e hc het hentry => ?_⟩
  · obtain ⟨c', hc', hentry⟩ := hit s e he i (het ▸ ht)
    rw [huniq s i c c' hc hc']
    exact hentry
  · refine fill s e i (het ▸ ht) fun j hj => ?_
    obtain rfl := hinj i j t ht (het ▸ hj)
    exact ⟨c, hc, hentry⟩

end

/-! ## One result on the stack -/

/-- Call `first`, with its result on the reference stack, and go on with it. -/
def pushed (first : BddState P → Option (ℕ × BddState P))
    (next : ℕ → BddState P → Option (ℕ × BddState P)) (s : BddState P) :
    Option (ℕ × BddState P) := do
  let (r0, s) ← first s
  let s := s.pushref r0
  let (res, s) ← next (s.readref 1) s
  some (res, s.popref 1)

theorem pushed_returns {first : BddState P → Option (ℕ × BddState P)}
    {next : ℕ → BddState P → Option (ℕ × BddState P)} {Q₀ Q : Prop → DTree (Leaf P) → Prop}
    (hfirst : Returns S s Q₀ (first s))
    (hnext : ∀ s' n, Inv S s' → Evo S.D s s' → Pushed S s' Q₀ n → Returns S s' Q (next n s')) :
    Returns S s Q (pushed first next s) := by
  obtain ⟨⟨r0, s0⟩, hr0, hp0⟩ := hfirst
  obtain ⟨hi, he, hst, ho⟩ := hp0.pushref
  dsimp only at hi he hst ho
  have hread : (s0.pushref r0).readref 1 = r0 := by
    unfold BddState.readref
    rw [hst]
    rfl
  obtain ⟨r, hr, hp⟩ := hnext _ r0 hi he ho
  refine ⟨(r.1, r.2.popref 1), ?_, ?_⟩
  · unfold pushed
    rw [hr0]
    show Option.bind (next ((s0.pushref r0).readref 1) (s0.pushref r0)) _ = _
    rw [hread, hr]
    rfl
  · have hdrop : r.2.bddrefstack.drop 1 = s.bddrefstack := by rw [hp.refstack, hst]; rfl
    unfold BddState.popref
    rw [hdrop]
    refine ⟨hp.inv.restack fun n hn => hp.inv.graph.stack n ?_,
      (he.trans hp.evo).restack (List.Subset.refl _), rfl, ?_⟩
    · rw [hp.refstack, hst]
      exact List.mem_cons_of_mem _ hn
    · obtain ⟨t, hr, hQ⟩ := hp.result
      exact ⟨t, hr.congr fun m _ => ⟨rfl, fun _ _ => rfl⟩, hQ⟩

end MoToBuddy.Bdd
