import MoToBuddy.Bdd.Reads

/-!
# Contracts of the operations

`Inv` is what holds between any two steps of a recursion: the table is well formed, its nodes form
a diagram, and the entries of the caches mean what a `Setting` says. `Post` is the contract of a
call: it keeps `Inv` and whatever the caller holds, and its result represents a tree with a given
property. `makenode_post` is the contract of `bdd_makenode`.

Once the exhaustion of the table was reported, operations go on with the constant `0` for the
nodes that they could not make. So a property of results depends on whether anything was reported
(`BddState.Ok`): the shape of a result is always right, its value only if nothing was.
-/

namespace MoToBuddy.Bdd

open Chained Marking Decision

variable {P : Type*}

/-- No exhaustion was reported. -/
def BddState.Ok (s : BddState P) : Prop := s.bdderrorcond = false

/-- A property of results, given whether nothing was reported, is kept if that gets false. -/
def Lasting (Q : Prop → DTree (Leaf P) → Prop) : Prop :=
  ∀ ok ok' t, (ok' → ok) → Q ok t → Q ok' t

/-- What a group of operations assumes: the domain, the primality test, the meaning of cache
entries (which lasts while no node is freed), and whether the diagrams have no redundant nodes. -/
structure Theory (P : Type*) where
  D : MtbddDomain P
  isPrime : ℕ → Bool
  cache : BddState P → CacheId → BddCacheData → Prop
  stable : ∀ s s' k e, (∀ n, s.live n = true → SameNode D s s' n) → (s'.Ok → s.Ok) →
    cache s k e → cache s' k e
  reduced : Prop

/-- A theory for diagrams with a number of levels. -/
structure Setting (P : Type*) extends Theory P where
  top : ℕ
  top_le : top ≤ maxlevel

/-- The theory for diagrams with `top` levels. -/
def Theory.setting (T : Theory P) (top : ℕ) (top_le : top ≤ maxlevel) : Setting P :=
  { T with
    top := top
    top_le := top_le }

variable {S : Setting P} {s s' s'' : BddState P}

/-- The nodes form a diagram: children exist, levels increase and terminals can be read. -/
structure GraphInv (S : Setting P) (s : BddState P) : Prop where
  child : ∀ n, s.live n = true → ∀ m ∈ s.succ n, s.IsNode m
  order : ∀ n, s.live n = true → s.level n ≠ maxlevel →
    s.level n < S.top ∧ ∀ m ∈ s.succ n, m < 2 ∨ s.level n < s.level m
  value : ∀ n, s.live n = true → s.level n = maxlevel →
    ∃ v, mtbddGetvalue S.D s (s.key n).high = some v
  reduced : S.reduced → s.checkSameChildren = true ∧ ∀ n, s.live n = true →
    s.level n ≠ maxlevel → (s.key n).low ≠ some (s.key n).high
  stack : ∀ n ∈ s.bddrefstack, s.IsNode n

/-- Every valid entry means what it should. -/
def CacheSound (S : Setting P) (s : BddState P) : Prop :=
  ∀ k i, (s.caches k).isValid i = true → S.cache s k ((s.caches k).table i)

/-- The table, the diagram and the caches. Slots that are being filled are left over from terminals
that could not be made. -/
structure Core (S : Setting P) (s : BddState P) : Prop where
  table : ∃ flight, TableInv S.D S.isPrime flight s ∧ (s.Ok → flight = [])
  graph : GraphInv S s
  cache : CacheSound S s

/-- What holds between any two steps: the constants are below all levels, too. -/
structure Inv (S : Setting P) (s : BddState P) : Prop extends Core S s where
  top : ∀ n, n < 2 → S.top ≤ s.level n

/-- A node that the caller holds, with its tree. -/
structure Operand (S : Setting P) (s : BddState P) (n : ℕ) (t : DTree (Leaf P)) : Prop where
  held : n < 2 ∨ s.Held n
  reads : s.Reads S.D n t
  sorted : t.Sorted S.top
  top : ∀ m, m < 2 → S.top ≤ s.level m

/-- The contract of a call: what it keeps, and that its result represents a tree in `Q`. -/
structure Post (S : Setting P) (s : BddState P) (Q : Prop → DTree (Leaf P) → Prop)
    (r : ℕ × BddState P) : Prop where
  inv : Inv S r.2
  evo : Evo S.D s r.2
  refstack : r.2.bddrefstack = s.bddrefstack
  result : ∃ t, r.2.Reads S.D r.1 t ∧ Q r.2.Ok t

/-! ## Trees of nodes -/

/-- Every node of a diagram has a tree, whose root is at the node's level. -/
theorem GraphInv.exists_reads (h : GraphInv S s) {n : ℕ} (hn : s.IsNode n) :
    ∃ t, s.Reads S.D n t ∧ t.Sorted S.top ∧ t.Above (s.level n) := by
  have hconst : ∀ m, m < 2 → ∃ t, s.Reads S.D m t ∧ t.Sorted S.top ∧ ∀ k, t.Above k := by
    intro m hm
    obtain ⟨b, rfl⟩ : ∃ b : Bool, m = b.toNat := by
      match m, hm with
      | 0, _ => exact ⟨false, rfl⟩
      | 1, _ => exact ⟨true, rfl⟩
    exact ⟨_, .const b, trivial, fun _ => trivial⟩
  obtain ⟨k, hk⟩ : ∃ k, maxlevel - s.level n < k := ⟨_, Nat.lt_succ_self _⟩
  induction k generalizing n with
  | zero => omega
  | succ k ih =>
    rcases hn with hn | hn
    · obtain ⟨t, hr, hs, ha⟩ := hconst n hn
      exact ⟨t, hr, hs, ha _⟩
    · obtain ⟨h2, low, hlow⟩ := BddState.live_iff.mp hn
      by_cases hlevel : s.level n = maxlevel
      · obtain ⟨v, hv⟩ := h.value n hn hlevel
        exact ⟨_, .terminal hn hlevel hlow hv, trivial, trivial⟩
      · obtain ⟨hlt, hchild⟩ := h.order n hn hlevel
        have htop := S.top_le
        have hkey : s.key n = ⟨some low, (s.key n).high, s.level n⟩ := by
          rw [← hlow]
          rfl
        have hsucc : s.succ n = [low, (s.key n).high] := by
          unfold BddState.succ
          rw [hlow]
          exact if_neg hlevel
        have hdeep : ∀ m ∈ s.succ n, ∃ t, s.Reads S.D m t ∧ t.Sorted S.top ∧
            t.Above (s.level n + 1) := by
          intro m hm
          rcases hchild m hm with hm2 | hlt'
          · obtain ⟨t, hr, hs, ha⟩ := hconst m hm2
            exact ⟨t, hr, hs, ha _⟩
          · obtain ⟨t, hr, hs, ha⟩ := ih (h.child n hn m hm) (by omega)
            exact ⟨t, hr, hs, ha.mono hlt'⟩
        obtain ⟨tl, hrl, hsl, hal⟩ := hdeep low (by simp [hsucc])
        obtain ⟨th, hrh, hsh, hah⟩ := hdeep (s.key n).high (by simp [hsucc])
        exact ⟨_, .node h2 hkey hlevel hrl hrh, ⟨hlt, hal, hah, hsl, hsh⟩, Nat.le_refl _⟩

/-- A tree that a node of a diagram represents is sorted. -/
theorem GraphInv.sorted (h : GraphInv S s) {n : ℕ} {t : DTree (Leaf P)}
    (hr : s.Reads S.D n t) : t.Sorted S.top ∧ t.Above (s.level n) := by
  obtain ⟨t', hr', hs, ha⟩ := h.exists_reads hr.isNode
  rw [hr.unique hr']
  exact ⟨hs, ha⟩

theorem Inv.operand_of_reads (h : Inv S s) {n : ℕ} {t : DTree (Leaf P)}
    (hn : n < 2 ∨ s.Held n) (hr : s.Reads S.D n t) : Operand S s n t :=
  ⟨hn, hr, (h.graph.sorted hr).1, h.top⟩

/-- A node that is held is an operand. -/
theorem Inv.operand (h : Inv S s) {n : ℕ} (hn : n < 2 ∨ s.Held n) : ∃ t, Operand S s n t := by
  obtain ⟨t, hr, -, -⟩ := h.graph.exists_reads (hn.imp_right fun hh => hh.live)
  exact ⟨t, h.operand_of_reads hn hr⟩

namespace Operand

variable {n : ℕ} {t : DTree (Leaf P)}

/-- What operations leave alone keeps operands. -/
theorem evo (h : Operand S s n t) (he : Evo S.D s s') : Operand S s' n t := by
  refine ⟨h.held.imp_right (he.held n), h.reads.congr fun m hm => ?_, h.sorted,
    fun m hm => ?_⟩
  · rcases h.held with hn | hn
    · have hl := hm.live_left
      have := (BddState.live_iff.mp hl).1
      omega
    · obtain ⟨r, hr, hrn⟩ := hn
      exact he.same m ⟨r, hr, hrn.trans hm⟩
  · have hlevel : s'.level m = s.level m := he.const m hm
    rw [hlevel]
    exact h.top m hm

theorem unique {t' : DTree (Leaf P)} (h : Operand S s n t) (h' : s.Reads S.D n t') : t = t' :=
  h.reads.unique h'

/-- A leaf is at a level from the bound on. -/
theorem leaf_level {l : Leaf P} (h : Operand S s n (.leaf l)) : S.top ≤ s.level n := by
  have hr := h.reads
  cases hr with
  | const b => exact h.top _ (BddState.Reads.toNat_lt b)
  | terminal _ level _ _ => exact (show s.level n = maxlevel from level) ▸ S.top_le

/-- The children of a decision are operands, too. -/
theorem child {level : ℕ} {tl th : DTree (Leaf P)} (h : Operand S s n (.node level tl th)) :
    2 ≤ n ∧ s.level n = level ∧ level < S.top ∧ ∃ low high, (s.bddnodes n).low = some low ∧
      (s.bddnodes n).high = high ∧ Operand S s low tl ∧ Operand S s high th := by
  obtain ⟨low, high, inner, key, decision, below, above⟩ := h.reads.children
  have hsucc : s.succ n = [low, high] := by
    unfold BddState.succ
    rw [key]
    exact if_neg decision
  have hheld : s.Held n := h.held.resolve_left (by omega)
  have hchild : ∀ m ∈ s.succ n, s.IsNode m → m < 2 ∨ s.Held m := fun m hm hnode =>
    hnode.imp_right fun hl => hheld.child hm hl
  exact ⟨inner, congrArg BddKey.level key, h.sorted.1, low, high, congrArg BddKey.low key,
    congrArg BddKey.high key,
    ⟨hchild low (by simp [hsucc]) below.isNode, below, h.sorted.2.2.2.1, h.top⟩,
    ⟨hchild high (by simp [hsucc]) above.isNode, above, h.sorted.2.2.2.2, h.top⟩⟩

/-- The tree of a node starts at the node's level. -/
theorem above (h : Operand S s n t) : t.Above (s.level n) := by
  cases t with
  | leaf l => trivial
  | node level tl th => exact Nat.le_of_eq h.child.2.1

/-- A node at a level below the bound is a decision at that level. -/
theorem node_of_level (h : Operand S s n t) (hlt : s.level n < S.top) :
    ∃ tl th, t = .node (s.level n) tl th := by
  cases t with
  | leaf l => exact absurd hlt (Nat.not_lt.mpr h.leaf_level)
  | node level tl th =>
    rw [h.child.2.1]
    exact ⟨tl, th, rfl⟩

end Operand

/-! ## Steps -/

theorem Evo.ok (h : Evo S.D s s') (he : s'.Ok) : s.Ok := h.errorcond he

theorem Post.mono {Q Q' : Prop → DTree (Leaf P) → Prop} {r : ℕ × BddState P} (h : Post S s Q r)
    (hQ : ∀ ok t, Q ok t → Q' ok t) : Post S s Q' r :=
  ⟨h.inv, h.evo, h.refstack, h.result.imp fun t ht => ⟨ht.1, hQ _ t ht.2⟩⟩

/-- A result that is returned without a change of the state. -/
theorem Post.pure (hs : Inv S s) {Q : Prop → DTree (Leaf P) → Prop} {n : ℕ}
    (h : ∃ t, s.Reads S.D n t ∧ Q s.Ok t) : Post S s Q (n, s) :=
  ⟨hs, .refl s, rfl, h⟩

theorem Post.operand (hs : Inv S s) {Q : Prop → DTree (Leaf P) → Prop} {n : ℕ}
    {t : DTree (Leaf P)} (h : Operand S s n t) (hQ : Q s.Ok t) : Post S s Q (n, s) :=
  .pure hs ⟨t, h.reads, hQ⟩

theorem Post.const (hs : Inv S s) {Q : Prop → DTree (Leaf P) → Prop} (b : Bool)
    (hQ : Q s.Ok (.leaf (.const b))) : Post S s Q (b.toNat, s) :=
  .pure hs ⟨_, .const b, hQ⟩

/-- A pushed node is held. -/
theorem held_pushref {n : ℕ} (hn : s.IsNode n) : n < 2 ∨ (s.pushref n).Held n :=
  hn.imp_right fun hl => ⟨n, Or.inr List.mem_cons_self, .refl hl⟩

theorem Evo.pushref (s : BddState P) (n : ℕ) : Evo S.D s (s.pushref n) :=
  (Evo.refl s).restack (List.subset_cons_self n s.bddrefstack)

theorem TableInv.restack {D : MtbddDomain P} {isPrime : ℕ → Bool} {flight : List ℕ}
    (h : TableInv D isPrime flight s) (l : List ℕ) :
    TableInv D isPrime flight { s with bddrefstack := l } := { h with }

/-- The reference stack only matters for what is on it. -/
theorem Core.restack (h : Core S s) {l : List ℕ} (hl : ∀ n ∈ l, s.IsNode n) :
    Core S { s with bddrefstack := l } := by
  obtain ⟨flight, hi, hf⟩ := h.table
  have hg := h.graph
  exact ⟨⟨flight, hi.restack l, hf⟩, ⟨hg.child, hg.order, hg.value, hg.reduced, hl⟩,
    fun k i hv => S.stable s _ k _ (fun n _ => ⟨rfl, fun _ _ => rfl⟩) id (h.cache k i hv)⟩

theorem Inv.restack (h : Inv S s) {l : List ℕ} (hl : ∀ n ∈ l, s.IsNode n) :
    Inv S { s with bddrefstack := l } := ⟨h.toCore.restack hl, h.top⟩

theorem Inv.pushref (h : Inv S s) {n : ℕ} (hn : s.IsNode n) : Inv S (s.pushref n) :=
  h.restack fun m hm => by
    rcases List.mem_cons.mp hm with rfl | hm
    · exact hn
    · exact h.graph.stack m hm

/-- A node that a call returned, while it is on the stack. -/
def Pushed (S : Setting P) (s : BddState P) (Q : Prop → DTree (Leaf P) → Prop) (n : ℕ) : Prop :=
  ∃ t, Operand S s n t ∧ Q s.Ok t

theorem Pushed.evo {Q : Prop → DTree (Leaf P) → Prop} {n : ℕ} (h : Pushed S s Q n)
    (hQ : Lasting Q) (he : Evo S.D s s') : Pushed S s' Q n := by
  obtain ⟨t, ho, ht⟩ := h
  exact ⟨t, ho.evo he, hQ _ _ t he.ok ht⟩

theorem Pushed.mono {Q Q' : Prop → DTree (Leaf P) → Prop} {n : ℕ} (h : Pushed S s Q n)
    (hQ : ∀ ok t, Q ok t → Q' ok t) : Pushed S s Q' n := by
  obtain ⟨t, ho, ht⟩ := h
  exact ⟨t, ho, hQ _ t ht⟩

/-- After a call its result is pushed. -/
theorem Post.pushref {Q : Prop → DTree (Leaf P) → Prop} {r : ℕ × BddState P} (h : Post S s Q r) :
    Inv S (r.2.pushref r.1) ∧ Evo S.D s (r.2.pushref r.1) ∧
      (r.2.pushref r.1).bddrefstack = r.1 :: s.bddrefstack ∧
      Pushed S (r.2.pushref r.1) Q r.1 := by
  obtain ⟨t, hr, hQ⟩ := h.result
  refine ⟨h.inv.pushref hr.isNode, h.evo.trans (.pushref _ _), ?_, t,
    ⟨held_pushref hr.isNode, hr.congr fun m _ => ⟨rfl, fun _ _ => rfl⟩,
      (h.inv.graph.sorted hr).1, h.inv.top⟩, hQ⟩
  show r.1 :: r.2.bddrefstack = _
  rw [h.refstack]

/-- Storing a result keeps the contract if the entry means what it should. -/
theorem Post.store {Q : Prop → DTree (Leaf P) → Prop} {r : ℕ × BddState P} (h : Post S s Q r)
    (k : CacheId) (i : ℕ) {e : BddCacheData}
    (hentry : ∀ g, S.cache r.2 k { e with generation := g }) :
    Post S s Q (r.1, r.2.store k i e) := by
  have hsame : ∀ n, SameNode S.D r.2 (r.2.store k i e) n := fun n => ⟨rfl, fun _ _ => rfl⟩
  obtain ⟨flight, hi, hf⟩ := h.inv.table
  have hg := h.inv.graph
  refine ⟨⟨⟨⟨flight, { hi with caches := Caches.write_inv hi.caches k i e }, hf⟩,
    ⟨hg.child, hg.order, hg.value, hg.reduced, hg.stack⟩, fun k' j hv => ?_⟩, h.inv.top⟩, ?_,
    h.refstack, ?_⟩
  · refine S.stable r.2 _ k' _ (fun n _ => hsame n) id ?_
    show S.cache r.2 k' ((r.2.caches.write k i e k').table j)
    rcases Caches.write_valid hv with ⟨rfl, rfl, ht⟩ | ⟨hv', ht⟩
    · rw [ht]
      exact hentry _
    · rw [ht]
      exact h.inv.cache k' j hv'
  · exact ⟨h.evo.errorcond, h.evo.held, fun n hn => ⟨(h.evo.same n hn).key, (h.evo.same n hn).value⟩,
      h.evo.const, h.evo.refcou, h.evo.env, h.evo.checkSameChildren, h.evo.constKey, h.evo.told⟩
  · obtain ⟨t, hr, hQ⟩ := h.result
    exact ⟨t, hr.congr fun m _ => hsame m, hQ⟩

/-! ## `bdd_makenode` -/

/-- The tree of the node that `bdd_makenode` returns for children with the given trees. -/
def Join (D : MtbddDomain P) (check : Bool) (level : ℕ) (tl th t : DTree (Leaf P)) : Prop :=
  t = .node level tl th ∧ (check = true → D.Lawful ∨ IsBool t → tl ≠ th) ∨
    check = true ∧ tl = th ∧ t = tl

section Join

variable {D : MtbddDomain P} {check : Bool} {level : ℕ} {tl th t : DTree (Leaf P)}

theorem Join.eval (h : Join D check level tl th t) (x : ℕ → Bool) :
    t.eval x = if x level then th.eval x else tl.eval x := by
  rcases h with ⟨rfl, -⟩ | ⟨-, rfl, rfl⟩
  · exact DTree.eval_node level tl th x
  · exact (ite_self _).symm

theorem Join.evalBool (h : Join D check level tl th t) (x : ℕ → Bool) :
    Bdd.evalBool t x = if x level then Bdd.evalBool th x else Bdd.evalBool tl x := by
  unfold Bdd.evalBool
  rw [h.eval]
  cases x level <;> rfl

theorem Join.isBool (h : Join D check level tl th t) (hl : IsBool tl) (hh : IsBool th) :
    IsBool t := by
  rcases h with ⟨rfl, -⟩ | ⟨-, rfl, rfl⟩
  · exact ⟨hl, hh⟩
  · exact hl

theorem Join.above (h : Join D check level tl th t) (hl : tl.Above (level + 1)) :
    t.Above level := by
  rcases h with ⟨rfl, -⟩ | ⟨-, rfl, rfl⟩
  · exact Nat.le_refl level
  · exact hl.mono (Nat.le_succ level)

theorem Join.reduced (h : Join D check level tl th t) (hcheck : check = true)
    (hD : D.Lawful ∨ IsBool t) (hl : tl.Reduced) (hh : th.Reduced) : t.Reduced := by
  rcases h with ⟨rfl, hne⟩ | ⟨-, rfl, rfl⟩
  · exact ⟨hne hcheck hD, hl, hh⟩
  · exact hl

end Join

/-- A tree below a level belongs to a constant or to a node below that level. -/
theorem Operand.lt_level {n k : ℕ} {t : DTree (Leaf P)} (h : Operand S s n t)
    (ha : t.Above (k + 1)) (hk : k < S.top) : k < s.level n := by
  cases t with
  | leaf l => exact Nat.lt_of_lt_of_le hk h.leaf_level
  | node level tl th =>
    rw [h.child.2.1]
    exact ha

/-- What holds of one node of a diagram. -/
structure NodeInv (S : Setting P) (s : BddState P) (n : ℕ) : Prop where
  child : ∀ m ∈ s.succ n, s.IsNode m
  order : s.level n ≠ maxlevel → s.level n < S.top ∧ ∀ m ∈ s.succ n, m < 2 ∨ s.level n < s.level m
  value : s.level n = maxlevel → ∃ v, mtbddGetvalue S.D s (s.key n).high = some v
  reduced : S.reduced → s.level n ≠ maxlevel → (s.key n).low ≠ some (s.key n).high

theorem GraphInv.of_nodes (h : ∀ n, s.live n = true → NodeInv S s n)
    (hcheck : S.reduced → s.checkSameChildren = true)
    (hstack : ∀ n ∈ s.bddrefstack, s.IsNode n) : GraphInv S s :=
  ⟨fun n hn => (h n hn).child, fun n hn => (h n hn).order, fun n hn => (h n hn).value,
    fun hred => ⟨hcheck hred, fun n hn => (h n hn).reduced hred⟩, hstack⟩

/-- A node that is kept with its children is still part of a diagram. -/
theorem Kept.nodeInv {n : ℕ} (h : Kept S.D s s' n) (hg : GraphInv S s) : NodeInv S s' n := by
  have hlevel : ∀ m, SameNode S.D s s' m → s'.level m = s.level m := fun m hs =>
    congrArg BddKey.level hs.key
  have hsucc : s'.succ n = s.succ n := BddState.succ_congr h.same.key
  refine ⟨fun m hm => ?_, fun hdec => ?_, fun hterm => ?_, fun hred hdec => ?_⟩
  · rw [hsucc] at hm
    exact (hg.child n h.live m hm).imp_right fun hl => (h.child m hm hl).live hl
  · rw [hlevel n h.same] at hdec ⊢
    rw [hsucc]
    obtain ⟨hlt, hord⟩ := hg.order n h.live hdec
    refine ⟨hlt, fun m hm => ?_⟩
    rcases hg.child n h.live m hm with hm2 | hl
    · exact Or.inl hm2
    · rw [hlevel m (h.child m hm hl)]
      exact hord m hm
  · rw [hlevel n h.same] at hterm
    obtain ⟨v, hv⟩ := hg.value n h.live hterm
    refine ⟨v, ?_⟩
    rw [h.same.key, ← hv]
    refine BddState.getvalue_congr (s := s) (T := s'.terminals) fun hD => ?_
    exact h.same.value _ (BddState.slot_eq h.live hterm hD)
  · rw [hlevel n h.same] at hdec
    rw [h.same.key]
    exact (hg.reduced hred).2 n h.live hdec

/-- The reference stack holds nodes as long as they are kept. -/
theorem Evo.stack {D : MtbddDomain P} (h : Evo D s s') (hst : s'.bddrefstack = s.bddrefstack)
    (hs : ∀ n ∈ s.bddrefstack, s.IsNode n) : ∀ n ∈ s'.bddrefstack, s'.IsNode n := by
  intro n hn
  rw [hst] at hn
  exact (hs n hn).imp_right fun hl => (h.held n ⟨n, Or.inr hn, .refl hl⟩).live

/-- A call of `bdd_makenode` keeps the diagram. -/
theorem MakeSpec.graphInv {flight : List ℕ} {level low high : ℕ} {r : ℕ × BddState P}
    (h : MakeSpec S.D S.isPrime flight s level low high r) (hg : GraphInv S s)
    (hlevel : level < S.top)
    (hchild : ∀ m ∈ [low, high], (m < 2 ∨ s.Held m) ∧ (m < 2 ∨ level < s.level m)) :
    GraphInv S r.2 := by
  have hne : level ≠ maxlevel := by
    have := S.top_le
    omega
  refine .of_nodes (fun n hn => ?_)
    (fun hred => h.evo.checkSameChildren.trans (hg.reduced hred).1) (h.evo.stack h.refstack hg.stack)
  rcases h.back n hn with hk | ⟨hn1, hkey⟩
  · exact hk.nodeInv hg
  -- the new node
  have hsucc : r.2.succ n = [low, high] := by
    unfold BddState.succ
    rw [hkey]
    exact if_neg hne
  have hln : r.2.level n = level := congrArg BddKey.level hkey
  refine ⟨fun m hm => ?_, fun _ => ?_, fun hterm => absurd (hln.symm.trans hterm) hne,
    fun hred hdec => ?_⟩
  · rw [hsucc] at hm
    exact (hchild m hm).1.imp_right fun hh => (h.evo.held m hh).live
  · rw [hln, hsucc]
    refine ⟨hlevel, fun m hm => ?_⟩
    rcases (hchild m hm).1 with hm2 | hheld
    · exact Or.inl hm2
    · have hsame : r.2.level m = s.level m := congrArg BddKey.level (h.evo.same m hheld).key
      rw [hsame]
      exact (hchild m hm).2
  · rw [hkey]
    intro heq
    have heq' : low = high := Option.some.inj heq
    obtain ⟨hcheck, hdiff⟩ := hg.reduced hred
    cases h.outcome with
    | skip _ _ _ _ state =>
      rw [state] at hn hdec hkey
      have hno := hdiff n hn hdec
      rw [hkey] at hno
      exact hno heq
    | full node _ =>
      have h2 := (BddState.live_iff.mp hn).1
      omega
    | node differ _ _ _ _ => exact differ hcheck hne heq'

theorem CacheStable.cacheSound (h : CacheStable S.D s s') (he : s'.Ok → s.Ok)
    (hc : CacheSound S s) : CacheSound S s' := by
  intro k i hv
  rcases h with hflush | ⟨hcaches, hsame⟩
  · rw [hflush k i] at hv
    exact absurd hv Bool.false_ne_true
  · rw [hcaches] at hv ⊢
    exact S.stable s s' k _ hsame he (hc k i hv)

/-- A call of `bdd_makenode` keeps the invariant. -/
theorem bddMakenode_core (hs : Core S s) {level low high : ℕ} (hlevel : level < S.top)
    (hchild : ∀ m ∈ [low, high], (m < 2 ∨ s.Held m) ∧ (m < 2 ∨ level < s.level m)) :
    Core S (bddMakenode S.D S.isPrime s level low high).2 ∧
      ∃ flight, MakeSpec S.D S.isPrime flight s level low high
        (bddMakenode S.D S.isPrime s level low high) := by
  obtain ⟨flight, hi, hf⟩ := hs.table
  have htop := S.top_le
  have hmax : maxlevel < 2 ^ 21 := by decide
  have hne : level ≠ maxlevel := by omega
  have hm : MakeSpec S.D S.isPrime flight s level low high
      (bddMakenode S.D S.isPrime s level low high) :=
    bddMakenode_spec hi (by omega) (Or.inl hne) fun heq => absurd heq hne
  generalize bddMakenode S.D S.isPrime s level low high = r at hm ⊢
  exact ⟨⟨⟨flight, hm.inv, fun he => hf (hm.evo.ok he)⟩,
    hm.graphInv hs.graph hlevel hchild, hm.cache.cacheSound hm.evo.ok hs.cache⟩, flight, hm⟩

/-- A collection keeps the diagram of the nodes that are held. -/
theorem Collected.graphInv {flight : List ℕ} (h : Collected S.D flight s s') (hg : GraphInv S s) :
    GraphInv S s' := by
  refine .of_nodes (fun n hn => ?_)
    (fun hred => h.rest.checkSameChildren.trans (hg.reduced hred).1)
    (h.evo.stack h.rest.refstack hg.stack)
  have hheld := (h.live n).mp hn
  have hk : Kept S.D s s' n := ⟨h.evo.same n hheld, hheld.live, fun m hm hl =>
    h.evo.same m (hheld.child hm hl)⟩
  exact hk.nodeInv hg

/-- A collection keeps the invariant. -/
theorem bddGbc_core (hs : Core S s) : Core S (bddGbc S.D s) ∧ Evo S.D s (bddGbc S.D s) := by
  obtain ⟨flight, hi, hf⟩ := hs.table
  obtain ⟨hinv, hc⟩ := bddGbc_spec hi
  have hstable : CacheStable S.D s (bddGbc S.D s) := Or.inl hc.cache
  exact ⟨⟨⟨flight, hinv, fun he => hf (hc.evo.errorcond he)⟩, hc.graphInv hs.graph,
    hstable.cacheSound hc.evo.errorcond hs.cache⟩, hc.evo⟩

theorem Evo.top {D : MtbddDomain P} {top : ℕ} (h : Evo D s s')
    (ht : ∀ n, n < 2 → top ≤ s.level n) : ∀ n, n < 2 → top ≤ s'.level n := by
  intro n hn
  have hconst : s'.level n = s.level n := h.const n hn
  rw [hconst]
  exact ht n hn

/-- The contract of `bdd_makenode`, for children below the level. -/
theorem makenode_post (hs : Inv S s) {level low high : ℕ} (hlevel : level < S.top)
    {Ql Qh : Prop → DTree (Leaf P) → Prop} (hQl : Lasting Ql) (hQh : Lasting Qh)
    (hlow : Pushed S s (fun ok t => t.Above (level + 1) ∧ Ql ok t) low)
    (hhigh : Pushed S s (fun ok t => t.Above (level + 1) ∧ Qh ok t) high) :
    Post S s (fun ok t => (∃ tl th, Ql ok tl ∧ Qh ok th ∧ tl.Above (level + 1) ∧
          th.Above (level + 1) ∧ Join S.D s.checkSameChildren level tl th t) ∨
        ¬ ok ∧ t = .leaf (.const false))
      (bddMakenode S.D S.isPrime s level low high) := by
  obtain ⟨tl, hol, hal, hl⟩ := hlow
  obtain ⟨th, hoh, hah, hh⟩ := hhigh
  obtain ⟨hcore, flight, hm⟩ := bddMakenode_core hs.toCore hlevel fun m hmem => by
    rcases List.mem_pair.mp hmem with rfl | rfl
    · exact ⟨hol.held, Or.inr (hol.lt_level hal hlevel)⟩
    · exact ⟨hoh.held, Or.inr (hoh.lt_level hah hlevel)⟩
  generalize bddMakenode S.D S.isPrime s level low high = r at hcore hm ⊢
  refine ⟨⟨hcore, hm.evo.top hs.top⟩, hm.evo, hm.refstack, ?_⟩
  have hne : level ≠ maxlevel := by
    have := S.top_le
    omega
  have hl' := hQl _ _ tl hm.evo.ok hl
  have hh' := hQh _ _ th hm.evo.ok hh
  cases hm.outcome with
  | skip check _ same node state =>
    obtain rfl : tl = th := hol.unique (same ▸ hoh.reads)
    refine ⟨tl, ?_, Or.inl ⟨tl, tl, hl', hh', hal, hah, Or.inr ⟨check, rfl, rfl⟩⟩⟩
    rw [node, state]
    exact hol.reads
  | full node errorcond =>
    refine ⟨_, node ▸ .const false, Or.inr ⟨fun hok => ?_, rfl⟩⟩
    rw [show r.2.bdderrorcond = false from hok] at errorcond
    exact Bool.false_ne_true errorcond
  | node differ live key _ _ =>
    refine ⟨.node level tl th, ?_,
      Or.inl ⟨tl, th, hl', hh', hal, hah, Or.inl ⟨rfl, fun hcheck hD heq => ?_⟩⟩⟩
    · exact .node (BddState.live_iff.mp live).1 key hne (hol.evo hm.evo).reads
        (hoh.evo hm.evo).reads
    · -- the two children would be one node
      subst heq
      obtain ⟨_, hi, -⟩ := hs.table
      exact differ hcheck hne (hol.reads.inj hi (hD.imp_right And.left) hoh.reads)

end MoToBuddy.Bdd
