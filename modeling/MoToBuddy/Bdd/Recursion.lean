import MoToBuddy.Bdd.Contract
import MoToBuddy.Bdd.Operators

/-!
# Rules for the recursions

`Returns` is the total contract of a call. `branch_returns` and `memo_returns` are its rules for
the two parts of a recursion. `Computes` is what the operations on plain diagrams promise about
their result: a boolean function, below the levels of the operands.
-/

namespace MoToBuddy.Bdd

open Decision

variable {P : Type*} {S : Setting P} {s s' : BddState P}

/-- The call returns, with a result in `Q`. -/
def Returns (S : Setting P) (s : BddState P) (Q : Prop → DTree (Leaf P) → Prop)
    (o : Option (ℕ × BddState P)) : Prop := ∃ r, o = some r ∧ Post S s Q r

theorem Returns.mono {Q Q' : Prop → DTree (Leaf P) → Prop} {o : Option (ℕ × BddState P)}
    (h : Returns S s Q o) (hQ : ∀ ok t, Q ok t → Q' ok t) : Returns S s Q' o := by
  obtain ⟨r, hr, hp⟩ := h
  exact ⟨r, hr, hp.mono hQ⟩

theorem Post.returns {Q : Prop → DTree (Leaf P) → Prop} {r : ℕ × BddState P} (h : Post S s Q r) :
    Returns S s Q (some r) := ⟨r, rfl, h⟩

/-- There are more steps than levels. -/
theorem Setting.depth_bound (S : Setting P) (k : ℕ) : S.top - k < depth := by
  have htop := S.top_le
  show S.top - k < maxlevel + 1
  omega

/-! ## Two calls and a combination -/

/-- The two results that were pushed are popped. -/
theorem Post.popref {Q : Prop → DTree (Leaf P) → Prop} {r : ℕ × BddState P} {a b : ℕ}
    (hs : s'.bddrefstack = a :: b :: s.bddrefstack) (he : Evo S.D s s')
    (h : Post S s' Q r) : Post S s Q (r.1, r.2.popref 2) := by
  have hstack : r.2.bddrefstack = a :: b :: s.bddrefstack := h.refstack.trans hs
  have hdrop : r.2.bddrefstack.drop 2 = s.bddrefstack := by rw [hstack]; rfl
  unfold BddState.popref
  rw [hdrop]
  refine ⟨h.inv.restack fun n hn => h.inv.graph.stack n ?_,
    (he.trans h.evo).restack (List.Subset.refl _), rfl, ?_⟩
  · rw [hstack]
    exact List.mem_cons_of_mem _ (List.mem_cons_of_mem _ hn)
  · obtain ⟨t, hr, hQ⟩ := h.result
    exact ⟨t, hr.congr fun m _ => ⟨rfl, fun _ _ => rfl⟩, hQ⟩

theorem branch_returns {lowCall highCall : BddState P → Option (ℕ × BddState P)}
    {combine : ℕ → ℕ → BddState P → Option (ℕ × BddState P)}
    {Ql Qh Q : Prop → DTree (Leaf P) → Prop} (hQl : Lasting Ql)
    (hlow : Returns S s Ql (lowCall s))
    (hhigh : ∀ s', Inv S s' → Evo S.D s s' → Returns S s' Qh (highCall s'))
    (hcombine : ∀ s' low high, Inv S s' → Evo S.D s s' → Pushed S s' Ql low →
      Pushed S s' Qh high → Returns S s' Q (combine low high s')) :
    Returns S s Q (branch lowCall highCall combine s) := by
  obtain ⟨⟨r0, s0⟩, hr0, hp0⟩ := hlow
  obtain ⟨hi0, he0, hst0, ho0⟩ := hp0.pushref
  obtain ⟨⟨r1, s1⟩, hr1, hp1⟩ := hhigh _ hi0 he0
  obtain ⟨hi1, he1, hst1, ho1⟩ := hp1.pushref
  dsimp only at hi0 he0 hst0 ho0 hr1 hi1 he1 hst1 ho1
  have hstack : (s1.pushref r1).bddrefstack = r1 :: r0 :: s.bddrefstack := by
    rw [hst1, hst0]
  have hlow : (s1.pushref r1).readref 2 = r0 := by
    unfold BddState.readref
    rw [hstack]
    rfl
  have hhigh : (s1.pushref r1).readref 1 = r1 := by
    unfold BddState.readref
    rw [hstack]
    rfl
  obtain ⟨r, hr, hp⟩ := hcombine _ r0 r1 hi1 (he0.trans he1) (ho0.evo hQl he1) ho1
  refine ⟨(r.1, r.2.popref 2), ?_, hp.popref hstack (he0.trans he1)⟩
  unfold branch
  rw [hr0]
  show Option.bind (highCall (s0.pushref r0)) _ = _
  rw [hr1]
  show Option.bind (combine ((s1.pushref r1).readref 2) ((s1.pushref r1).readref 1)
    (s1.pushref r1)) _ = _
  rw [hlow, hhigh, hr]
  rfl

/-! ## A node on top -/

section Node

variable {level n low high : ℕ} {Ql Qh Q : Prop → DTree (Leaf P) → Prop}

/-- A node on top of two results below its level. -/
theorem nodeAt_returns (hs : Inv S s) (hlevel : level < S.top) (hn : s.level n = level)
    (hQl : Lasting Ql) (hQh : Lasting Qh) (hal : ∀ ok t, Ql ok t → t.Above (level + 1))
    (hah : ∀ ok t, Qh ok t → t.Above (level + 1)) (hlow : Pushed S s Ql low)
    (hhigh : Pushed S s Qh high)
    (hjoin : ∀ ok tl th t, Ql ok tl → Qh ok th → Join S.D s.checkSameChildren level tl th t →
      Q ok t)
    (hfull : ∀ ok, ¬ ok → Q ok (.leaf (.const false))) :
    Returns S s Q (nodeAt S.D S.isPrime n low high s) := by
  have hl : Pushed S s (fun ok t => t.Above (level + 1) ∧ Ql ok t) low :=
    hlow.mono fun ok t h => ⟨hal ok t h, h⟩
  have hh : Pushed S s (fun ok t => t.Above (level + 1) ∧ Qh ok t) high :=
    hhigh.mono fun ok t h => ⟨hah ok t h, h⟩
  unfold nodeAt
  rw [hn]
  apply Post.returns
  apply (makenode_post hs hlevel hQl hQh hl hh).mono
  intro ok t ht
  rcases ht with ⟨tl, th, hl, hh, -, -, hj⟩ | ⟨hok, rfl⟩
  · exact hjoin ok tl th t hl hh hj
  · exact hfull ok hok

/-- Two recursive calls with a node on top. -/
theorem branch_node {lowCall highCall : BddState P → Option (ℕ × BddState P)}
    (hlevel : level < S.top) (hn : ∀ s', Evo S.D s s' → s'.level n = level)
    (hQl : Lasting Ql) (hQh : Lasting Qh) (hal : ∀ ok t, Ql ok t → t.Above (level + 1))
    (hah : ∀ ok t, Qh ok t → t.Above (level + 1)) (hlow : Returns S s Ql (lowCall s))
    (hhigh : ∀ s', Inv S s' → Evo S.D s s' → Returns S s' Qh (highCall s'))
    (hjoin : ∀ ok check tl th t, Ql ok tl → Qh ok th → Join S.D check level tl th t → Q ok t)
    (hfull : ∀ ok, ¬ ok → Q ok (.leaf (.const false))) :
    Returns S s Q (branch lowCall highCall (nodeAt S.D S.isPrime n) s) := by
  apply branch_returns hQl hlow hhigh
  intro s' low high hi he h0 h1
  exact nodeAt_returns hi hlevel (hn s' he) hQl hQh hal hah h0 h1 (fun ok => hjoin ok _) hfull

end Node

/-! ## The cache -/

theorem memo_returns (hs : Inv S s) {k : CacheId} {hash : UInt32} {hit : BddCacheData → Bool}
    {fill : BddCacheData → ℕ → BddCacheData} {body : BddState P → Option (ℕ × BddState P)}
    {Q : Prop → DTree (Leaf P) → Prop}
    (hhit : ∀ e, S.cache s k e → hit e = true → ∃ t, s.Reads S.D e.res t ∧ Q s.Ok t)
    (hbody : Returns S s Q (body s))
    (hfill : ∀ s' e res t g, Evo S.D s s' → s'.Reads S.D res t → Q s'.Ok t →
      S.cache s' k { fill e res with generation := g }) :
    Returns S s Q (memo k hash hit fill body s) := by
  unfold memo
  dsimp only
  split
  · rename_i hc
    rw [Bool.and_eq_true] at hc
    exact (Post.pure hs (hhit _ (hs.cache k _ hc.1) hc.2)).returns
  · obtain ⟨r, hr, hp⟩ := hbody
    rw [hr]
    refine ⟨_, rfl, hp.store k _ fun g => ?_⟩
    obtain ⟨t, hreads, hQ⟩ := hp.result
    exact hfill _ _ _ _ g hp.evo hreads hQ

/-! ## Branches of operands -/

section Cofactors

variable {n k level : ℕ} {t : DTree (Leaf P)}

/-- `p` reads the branches of an operand at a level. -/
def Cofactors (S : Setting P) (s : BddState P) (level : ℕ) (t : DTree (Leaf P))
    (p : Bool → BddState P → ℕ) : Prop :=
  ∀ s', Evo S.D s s' → ∀ b, Operand S s' (p b s') (t.cof level b)

/-- The child of a node for a value of its variable. -/
def childOf (n : ℕ) (b : Bool) (s : BddState P) : ℕ := cond b (s.high n) (s.low n)

/-- The tree of a node above the bound is a decision at the node's level. -/
theorem Operand.cofactors (h : Operand S s n t) (hlevel : s.level n = level)
    (hlt : level < S.top) : Cofactors S s level t (childOf n) := by
  intro s' he b
  subst hlevel
  obtain ⟨tl, th, rfl⟩ := h.node_of_level hlt
  rw [DTree.cof_node]
  obtain ⟨-, -, -, low, high, hlow, hhigh, hol, hoh⟩ := (h.evo he).child
  cases b
  · rw [if_neg Bool.false_ne_true]
    show Operand S s' (s'.low n) tl
    unfold BddState.low
    rw [hlow]
    exact hol
  · rw [if_pos rfl]
    show Operand S s' (s'.high n) th
    unfold BddState.high
    rw [hhigh]
    exact hoh

/-- An operand that starts below the level is its own branch. -/
theorem Operand.cofactors_self (h : Operand S s n t) (hlt : level < s.level n) :
    Cofactors S s level t fun _ _ => n := by
  intro s' he b
  rw [DTree.cof_of_above (h.above.mono hlt)]
  exact h.evo he

/-- A bound of a tree is one of the level of its root. -/
theorem Operand.le_level (h : Operand S s n t) (ha : t.Above k) (hlt : s.level n < S.top) :
    k ≤ s.level n := by
  obtain ⟨tl, th, rfl⟩ := h.node_of_level hlt
  exact ha

/-- A plain operand that is not a constant is a decision. -/
theorem Operand.level_lt (h : Operand S s n t) (hb : IsBool t) (hn : ¬ n < 2) :
    s.level n < S.top := by
  cases t with
  | leaf l =>
    have hr := h.reads
    cases hr with
    | const b => exact absurd (BddState.Reads.toNat_lt b) hn
    | terminal _ _ _ _ => exact hb.elim
  | node level tl th =>
    obtain ⟨-, hlevel, hlt, -⟩ := h.child
    exact hlevel ▸ hlt

theorem Operand.level_evo (h : Operand S s n t) (hlt : s.level n < S.top)
    (he : Evo S.D s s') : s'.level n = s.level n := by
  obtain ⟨tl, th, rfl⟩ := h.node_of_level hlt
  exact (h.evo he).child.2.1

/-- The operand at the level is a decision there. -/
theorem Operand.root (h : Operand S s n t) (hlt : s.level n < S.top)
    {ops : List (DTree (Leaf P))} (ht : t ∈ ops) :
    ∃ a b, DTree.node (s.level n) a b ∈ ops := by
  obtain ⟨a, b, hab⟩ := h.node_of_level hlt
  exact ⟨a, b, hab ▸ ht⟩

theorem Operand.const {b : Bool} (h : Operand S s n t) (hn : n = b.toNat) :
    t = .leaf (.const b) := h.reads.unique (hn ▸ .const b)

end Cofactors

/-- A recursion on the branches at the level of `n`, the smallest one: what it needs to know about
each operand and the way it reads the operand's branches. -/
structure SplitAt (S : Setting P) (s : BddState P) (k n level : ℕ)
    (ops : List (DTree (Leaf P) × (Bool → BddState P → ℕ))) : Prop where
  lt : level < S.top
  le : k ≤ level
  level_eq : ∀ s', Evo S.D s s' → s'.level n = level
  root : ∃ a b, DTree.node level a b ∈ ops.map Prod.fst
  sorted : ∀ u ∈ ops.map Prod.fst, u.Sorted S.top ∧ u.Above level
  cofactors : ∀ o ∈ ops, Cofactors S s level o.1 o.2

section SplitAt

variable {k f g h : ℕ} {tf tg th : DTree (Leaf P)} {G : Option (ℕ × BddState P) → Prop}

/-- The three ways to split two operands. -/
theorem split_two {B : ℕ → (Bool → BddState P → ℕ) → (Bool → BddState P → ℕ) →
      Option (ℕ × BddState P)} (hf : Operand S s f tf) (hg : Operand S s g tg)
    (haf : tf.Above k) (hag : tg.Above k) (hlt : s.level f < S.top ∨ s.level g < S.top)
    (hB : ∀ n level pf pg, SplitAt S s k n level [(tf, pf), (tg, pg)] → G (B n pf pg)) :
    G (if s.level f = s.level g then B f (childOf f) (childOf g)
      else if s.level f < s.level g then B f (childOf f) fun _ _ => g
      else B g (fun _ _ => f) (childOf g)) := by
  have hmem : ∀ {Q : DTree (Leaf P) → Prop}, Q tf → Q tg → ∀ u ∈ [tf, tg], Q u := by
    intro Q h1 h2 u hu
    rcases List.mem_pair.mp hu with rfl | rfl
    · exact h1
    · exact h2
  have hcof : ∀ {level : ℕ} {pf pg : Bool → BddState P → ℕ}, Cofactors S s level tf pf →
      Cofactors S s level tg pg → ∀ o ∈ [(tf, pf), (tg, pg)], Cofactors S s level o.1 o.2 := by
    intro level pf pg h1 h2 o ho
    rcases List.mem_pair.mp ho with rfl | rfl
    · exact h1
    · exact h2
  by_cases heq : s.level f = s.level g
  · rw [if_pos heq]
    have hltf : s.level f < S.top := by omega
    exact hB _ _ _ _ ⟨hltf, hf.le_level haf hltf, fun _ => hf.level_evo hltf,
      hf.root hltf List.mem_cons_self, hmem ⟨hf.sorted, hf.above⟩ ⟨hg.sorted, heq ▸ hg.above⟩,
      hcof (hf.cofactors rfl hltf) (hg.cofactors heq.symm hltf)⟩
  rw [if_neg heq]
  by_cases hless : s.level f < s.level g
  · rw [if_pos hless]
    have hltf : s.level f < S.top := by omega
    exact hB _ _ _ _ ⟨hltf, hf.le_level haf hltf, fun _ => hf.level_evo hltf,
      hf.root hltf List.mem_cons_self,
      hmem ⟨hf.sorted, hf.above⟩ ⟨hg.sorted, hg.above.mono hless.le⟩,
      hcof (hf.cofactors rfl hltf) (hg.cofactors_self hless)⟩
  · rw [if_neg hless]
    have hgf : s.level g < s.level f := by omega
    have hltg : s.level g < S.top := by omega
    exact hB _ _ _ _ ⟨hltg, hg.le_level hag hltg, fun _ => hg.level_evo hltg,
      hg.root hltg (by simp), hmem ⟨hf.sorted, hf.above.mono hgf.le⟩ ⟨hg.sorted, hg.above⟩,
      hcof (hf.cofactors_self hgf) (hg.cofactors rfl hltg)⟩

/-- The ways to split three operands of which the first is a node. -/
theorem split_three {B : ℕ → (Bool → BddState P → ℕ) → (Bool → BddState P → ℕ) →
      (Bool → BddState P → ℕ) → Option (ℕ × BddState P)} (hf : Operand S s f tf)
    (hg : Operand S s g tg) (hh : Operand S s h th) (haf : tf.Above k) (hag : tg.Above k)
    (hah : th.Above k) (hlt : s.level f < S.top)
    (hB : ∀ n level pf pg ph,
      SplitAt S s k n level [(tf, pf), (tg, pg), (th, ph)] → G (B n pf pg ph)) :
    G (if s.level f = s.level g then
        if s.level f = s.level h then B f (childOf f) (childOf g) (childOf h)
        else if s.level f < s.level h then B f (childOf f) (childOf g) fun _ _ => h
        else B h (fun _ _ => f) (fun _ _ => g) (childOf h)
      else if s.level f < s.level g then
        if s.level f = s.level h then B f (childOf f) (fun _ _ => g) (childOf h)
        else if s.level f < s.level h then B f (childOf f) (fun _ _ => g) fun _ _ => h
        else B h (fun _ _ => f) (fun _ _ => g) (childOf h)
      else
        if s.level g = s.level h then B g (fun _ _ => f) (childOf g) (childOf h)
        else if s.level g < s.level h then B g (fun _ _ => f) (childOf g) fun _ _ => h
        else B h (fun _ _ => f) (fun _ _ => g) (childOf h)) := by
  have hmem : ∀ {Q : DTree (Leaf P) → Prop}, Q tf → Q tg → Q th → ∀ u ∈ [tf, tg, th], Q u := by
    intro Q h1 h2 h3 u hu
    simp only [List.mem_cons, List.not_mem_nil, or_false] at hu
    rcases hu with rfl | rfl | rfl
    · exact h1
    · exact h2
    · exact h3
  have hcof : ∀ {level : ℕ} {pf pg ph : Bool → BddState P → ℕ}, Cofactors S s level tf pf →
      Cofactors S s level tg pg → Cofactors S s level th ph →
      ∀ o ∈ [(tf, pf), (tg, pg), (th, ph)], Cofactors S s level o.1 o.2 := by
    intro level pf pg ph h1 h2 h3 o ho
    simp only [List.mem_cons, List.not_mem_nil, or_false] at ho
    rcases ho with rfl | rfl | rfl
    · exact h1
    · exact h2
    · exact h3
  have hatf : ∀ {pg ph : Bool → BddState P → ℕ}, s.level f ≤ s.level g → s.level f ≤ s.level h →
      Cofactors S s (s.level f) tg pg → Cofactors S s (s.level f) th ph →
      G (B f (childOf f) pg ph) := fun hfg hfh hpg hph =>
    hB _ _ _ _ _ ⟨hlt, hf.le_level haf hlt, fun _ => hf.level_evo hlt,
      hf.root hlt List.mem_cons_self, hmem ⟨hf.sorted, hf.above⟩
        ⟨hg.sorted, hg.above.mono hfg⟩ ⟨hh.sorted, hh.above.mono hfh⟩,
      hcof (hf.cofactors rfl hlt) hpg hph⟩
  have hatg : ∀ {ph : Bool → BddState P → ℕ}, s.level g < s.level f → s.level g ≤ s.level h →
      Cofactors S s (s.level g) th ph → G (B g (fun _ _ => f) (childOf g) ph) :=
    fun hgf hgh hph =>
    have hltg := Nat.lt_trans hgf hlt
    hB _ _ _ _ _ ⟨hltg, hg.le_level hag hltg, fun _ => hg.level_evo hltg, hg.root hltg (by simp),
      hmem ⟨hf.sorted, hf.above.mono hgf.le⟩ ⟨hg.sorted, hg.above⟩
        ⟨hh.sorted, hh.above.mono hgh⟩,
      hcof (hf.cofactors_self hgf) (hg.cofactors rfl hltg) hph⟩
  have hath : s.level h < s.level f → s.level h < s.level g →
      G (B h (fun _ _ => f) (fun _ _ => g) (childOf h)) := fun hhf hhg =>
    have hlth := Nat.lt_trans hhf hlt
    hB _ _ _ _ _ ⟨hlth, hh.le_level hah hlth, fun _ => hh.level_evo hlth, hh.root hlth (by simp),
      hmem ⟨hf.sorted, hf.above.mono hhf.le⟩ ⟨hg.sorted, hg.above.mono hhg.le⟩
        ⟨hh.sorted, hh.above⟩,
      hcof (hf.cofactors_self hhf) (hg.cofactors_self hhg) (hh.cofactors rfl hlth)⟩
  by_cases hfg : s.level f = s.level g
  · rw [if_pos hfg]
    have hpg := hg.cofactors hfg.symm hlt
    by_cases hfh : s.level f = s.level h
    · rw [if_pos hfh]
      exact hatf hfg.le hfh.le hpg (hh.cofactors hfh.symm hlt)
    rw [if_neg hfh]
    by_cases hltf : s.level f < s.level h
    · rw [if_pos hltf]
      exact hatf hfg.le hltf.le hpg (hh.cofactors_self hltf)
    · rw [if_neg hltf]
      exact hath (by omega) (by omega)
  rw [if_neg hfg]
  by_cases hltg : s.level f < s.level g
  · rw [if_pos hltg]
    have hpg := hg.cofactors_self hltg
    by_cases hfh : s.level f = s.level h
    · rw [if_pos hfh]
      exact hatf hltg.le hfh.le hpg (hh.cofactors hfh.symm hlt)
    rw [if_neg hfh]
    by_cases hltf : s.level f < s.level h
    · rw [if_pos hltf]
      exact hatf hltg.le hltf.le hpg (hh.cofactors_self hltf)
    · rw [if_neg hltf]
      exact hath (by omega) (by omega)
  rw [if_neg hltg]
  have hgf : s.level g < s.level f := by omega
  by_cases hgh : s.level g = s.level h
  · rw [if_pos hgh]
    exact hatg hgf hgh.le (hh.cofactors hgh.symm (Nat.lt_trans hgf hlt))
  rw [if_neg hgh]
  by_cases hltg' : s.level g < s.level h
  · rw [if_pos hltg']
    exact hatg hgf hltg'.le (hh.cofactors_self hltg')
  · rw [if_neg hltg']
    exact hath (by omega) (by omega)

end SplitAt

/-! ## Boolean results -/

/-- The result of an operation on plain diagrams: it is plain, it starts where the operands start,
and if nothing was reported it is the function `f`. -/
structure Computes (ops : List (DTree (Leaf P))) (f : (ℕ → Bool) → Bool) (ok : Prop)
    (t : DTree (Leaf P)) : Prop where
  isBool : IsBool t
  above : ∀ k, (∀ u ∈ ops, u.Above k) → t.Above k
  eval : ok → ∀ x, evalBool t x = f x

theorem IsBool.cof {t : DTree (Leaf P)} (h : IsBool t) (k : ℕ) (b : Bool) :
    IsBool (t.cof k b) := by
  cases t with
  | leaf l => exact h
  | node level low high =>
    rw [DTree.cof_def]
    split
    · cases b
      · exact h.1
      · exact h.2
    · exact h

theorem evalBool_cof (t : DTree (Leaf P)) (k : ℕ) (x : ℕ → Bool) :
    evalBool (t.cof k (x k)) x = evalBool t x := by
  unfold evalBool
  rw [DTree.eval_cof]

section Computes

variable {ops : List (DTree (Leaf P))} {f fl fh : (ℕ → Bool) → Bool} {ok : Prop}
  {t tl th : DTree (Leaf P)}

theorem Computes.lasting (ops : List (DTree (Leaf P))) (f : (ℕ → Bool) → Bool) :
    Lasting (Computes ops f) := fun _ _ _ hok h => ⟨h.isBool, h.above, fun h' => h.eval (hok h')⟩

/-- One of the operands is the result. -/
theorem Computes.operand {u : DTree (Leaf P)} (hu : u ∈ ops) (hb : IsBool u)
    (hf : ∀ x, f x = evalBool u x) : Computes ops f ok u :=
  ⟨hb, fun _ h => h u hu, fun _ x => (hf x).symm⟩

theorem Computes.const (b : Bool) (hf : ∀ x, f x = b) :
    Computes ops f ok (.leaf (.const b)) :=
  ⟨trivial, fun _ _ => trivial, fun _ x => (hf x).symm⟩

/-- What stands for a node that could not be made. -/
theorem Computes.full (hok : ¬ ok) (b : Bool) : Computes ops f ok (.leaf (.const b)) :=
  ⟨trivial, fun _ _ => trivial, fun h => absurd h hok⟩

/-- The results for the branches of the operands, joined. -/
theorem Computes.join {D : MtbddDomain P} {check : Bool} {level M : ℕ}
    (hl : Computes (ops.map (·.cof level false)) fl ok tl)
    (hh : Computes (ops.map (·.cof level true)) fh ok th)
    (hops : ∀ u ∈ ops, u.Sorted M ∧ u.Above level)
    (hroot : ∃ a b, DTree.node level a b ∈ ops) (hj : Join D check level tl th t)
    (hf : ∀ x, f x = if x level then fh x else fl x) : Computes ops f ok t := by
  have hal : tl.Above (level + 1) := hl.above _ fun u hu => by
    obtain ⟨v, hv, rfl⟩ := List.mem_map.mp hu
    exact (hops v hv).2.cof (hops v hv).1 false
  refine ⟨hj.isBool hl.isBool hh.isBool, fun k hk => ?_, fun hok x => ?_⟩
  · obtain ⟨a, b, hmem⟩ := hroot
    exact (hj.above hal).mono (hk _ hmem)
  · rw [hj.evalBool, hf, hl.eval hok, hh.eval hok]

/-- Results for the branches at a level are below it. -/
theorem Computes.below {level M : ℕ} {b : Bool}
    (h : Computes (ops.map (·.cof level b)) f ok t)
    (hops : ∀ u ∈ ops, u.Sorted M ∧ u.Above level) : t.Above (level + 1) := by
  refine h.above _ fun v hv => ?_
  obtain ⟨w, hw, rfl⟩ := List.mem_map.mp hv
  exact (hops w hw).2.cof (hops w hw).1 b

/-- A node on top of the results for the branches. -/
theorem nodeAt_computes {level n low high : ℕ} (hs : Inv S s) (hlevel : level < S.top)
    (hn : s.level n = level) (hops : ∀ u ∈ ops, u.Sorted S.top ∧ u.Above level)
    (hroot : ∃ a b, DTree.node level a b ∈ ops)
    (hlow : Pushed S s (Computes (ops.map (·.cof level false)) fl) low)
    (hhigh : Pushed S s (Computes (ops.map (·.cof level true)) fh) high)
    (hf : ∀ x, f x = if x level then fh x else fl x) :
    Returns S s (Computes ops f) (nodeAt S.D S.isPrime n low high s) :=
  nodeAt_returns hs hlevel hn (Computes.lasting _ _) (Computes.lasting _ _)
    (fun _ _ h => h.below hops) (fun _ _ h => h.below hops) hlow hhigh
    (fun _ _ _ _ hl hh hj => hl.join hh hops hroot hj hf) fun _ hok => .full hok false

/-- A recursion on the branches of its operands, with a node on top. -/
theorem branch_computes {level n : ℕ} {lowCall highCall : BddState P → Option (ℕ × BddState P)}
    (hlevel : level < S.top) (hn : ∀ s', Evo S.D s s' → s'.level n = level)
    (hops : ∀ u ∈ ops, u.Sorted S.top ∧ u.Above level)
    (hroot : ∃ a b, DTree.node level a b ∈ ops)
    (hlow : Returns S s (Computes (ops.map (·.cof level false)) fl) (lowCall s))
    (hhigh : ∀ s', Inv S s' → Evo S.D s s' →
      Returns S s' (Computes (ops.map (·.cof level true)) fh) (highCall s'))
    (hf : ∀ x, f x = if x level then fh x else fl x) :
    Returns S s (Computes ops f)
      (branch lowCall highCall (nodeAt S.D S.isPrime n) s) :=
  branch_node hlevel hn (Computes.lasting _ _) (Computes.lasting _ _)
    (fun _ _ h => h.below hops) (fun _ _ h => h.below hops) hlow hhigh
    (fun _ _ _ _ _ hl hh hj => hl.join hh hops hroot hj hf) fun _ hok => .full hok false

end Computes

end MoToBuddy.Bdd
