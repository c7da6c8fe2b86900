import MoToBuddy.Bdd.Contract
import MoToBuddy.Bdd.MtbddCode
import MoToBuddy.Lib.Yields

/-!
# Programs that build diagrams

`Unfolds` relates a node to its tree with the nodes of the leaves, so that two nodes are the same
if their trees are (`Unfolds.inj`), whatever the domain of the terminals. `Within` is what the steps
of a function have done since it was called: the table is well formed, what the caller holds is as
it was, and some entries of its own are on the reference stack. The rules say what the commands of
`Code` return under the condition that no exhaustion is reported.
-/

namespace MoToBuddy.Bdd

open Chained Marking Decision Jumping

variable {P : Type} {D : MtbddDomain P} {isPrime : ℕ → Bool} {s s' : BddState P}

/-- Node `n` unfolds to the tree, where leaves are labelled with their nodes. -/
inductive BddState.Unfolds (D : MtbddDomain P) (s : BddState P) : ℕ → DTree (ℕ × Leaf P) → Prop
  | leaf {n : ℕ} {l : Leaf P} (reads : s.Reads D n (.leaf l)) : s.Unfolds D n (.leaf (n, l))
  | node {n low high level : ℕ} {tl th : DTree (ℕ × Leaf P)} (inner : 2 ≤ n)
      (key : s.key n = ⟨some low, high, level⟩) (decision : level ≠ maxlevel)
      (below : s.Unfolds D low tl) (above : s.Unfolds D high th) :
      s.Unfolds D n (.node level tl th)

namespace BddState.Unfolds

variable {n m level : ℕ} {t t' tl th : DTree (ℕ × Leaf P)}

theorem reads (h : s.Unfolds D n t) : s.Reads D n (t.map Prod.snd) := by
  induction h with
  | leaf reads => exact reads
  | node inner key decision _ _ ihl ihh => exact .node inner key decision ihl ihh

theorem of_reads {u : DTree (Leaf P)} (h : s.Reads D n u) :
    ∃ t, t.map Prod.snd = u ∧ s.Unfolds D n t := by
  induction u generalizing n with
  | leaf l => exact ⟨.leaf (n, l), rfl, .leaf h⟩
  | node level low high ihl ihh =>
    obtain ⟨lo, hi, inner, key, decision, below, above⟩ := h.children
    obtain ⟨tl, rfl, hl⟩ := ihl below
    obtain ⟨th, rfl, hh⟩ := ihh above
    exact ⟨.node level tl th, rfl, .node inner key decision hl hh⟩

/-- The children of a node with a decision tree. -/
theorem children (h : s.Unfolds D n (.node level tl th)) :
    ∃ low high, 2 ≤ n ∧ s.key n = ⟨some low, high, level⟩ ∧ level ≠ maxlevel ∧
      s.Unfolds D low tl ∧ s.Unfolds D high th := by
  cases h with
  | node inner key decision below above => exact ⟨_, _, inner, key, decision, below, above⟩

theorem isNode (h : s.Unfolds D n t) : s.IsNode n := h.reads.isNode

theorem unique (h : s.Unfolds D n t) (h' : s.Unfolds D n t') : t = t' := by
  induction t generalizing n t' with
  | leaf l =>
    have heq := h.reads.unique h'.reads
    cases h with
    | @leaf _ l reads =>
      cases h' with
      | @leaf _ l' reads' =>
        have hl : l = l' := DTree.leaf.inj heq
        rw [hl]
      | node _ _ _ _ _ => exact nomatch heq
  | node level tl th ihl ihh =>
    obtain ⟨low, high, inner, key, decision, below, above⟩ := h.children
    cases h' with
    | leaf reads => exact nomatch reads.unique h.reads
    | node _ key' _ below' above' =>
      rw [key] at key'
      obtain ⟨hlow, rfl, rfl⟩ := BddKey.mk.inj key'
      obtain rfl := Option.some.inj hlow
      rw [ihl below below', ihh above above']

/-- A node is the only one with its tree. -/
theorem inj {flight : List ℕ} (hi : TableInv D isPrime flight s) (h : s.Unfolds D n t)
    (h' : s.Unfolds D m t) : n = m := by
  induction t generalizing n m with
  | leaf l =>
    cases h with
    | leaf _ =>
      generalize hu : DTree.leaf _ = u at h'
      cases h' with
      | leaf _ => exact congrArg Prod.fst (DTree.leaf.inj hu)
      | node _ _ _ _ _ => exact nomatch hu
  | node level tl th ihl ihh =>
    obtain ⟨low, high, inner, key, decision, below, above⟩ := h.children
    obtain ⟨low', high', inner', key', -, below', above'⟩ := h'.children
    have hlow := ihl below below'
    have hhigh := ihh above above'
    apply hi.unique n m (Reads.live_of_key inner key) (Reads.live_of_key inner' key')
    · left
      rw [key]
      exact decision
    · rw [key, key', hlow, hhigh]

/-- The tree only depends on the nodes below. -/
theorem congr (h : s.Unfolds D n t) (hsame : ∀ m, Reach s.live s.succ n m → SameNode D s s' m) :
    s'.Unfolds D n t := by
  induction h with
  | leaf reads => exact .leaf (reads.congr hsame)
  | @node n low high level tl th inner key decision below above ihl ihh =>
    have hlive := Reads.live_of_key inner key
    have hsucc : s.succ n = [low, high] := by
      unfold BddState.succ
      rw [key]
      exact if_neg decision
    refine .node inner ?_ decision (ihl fun m hm => ?_) (ihh fun m hm => ?_)
    · rw [(hsame n (.refl hlive)).key]
      exact key
    · exact hsame m (Reach.child hlive (by simp [hsucc]) hm)
    · exact hsame m (Reach.child hlive (by simp [hsucc]) hm)

/-- A node is at the level of its decision; a leaf is a constant or at the last level. -/
theorem lt_level_iff {k : ℕ} (h : s.Unfolds D n t) (hk : k < maxlevel) :
    (k < s.level n ∨ n < 2) ↔ t.Above (k + 1) := by
  cases h with
  | leaf reads =>
    refine iff_of_true ?_ trivial
    cases reads with
    | const b => exact Or.inr (Reads.toNat_lt b)
    | terminal _ level _ _ =>
      left
      rw [show s.level n = maxlevel from level]
      exact hk
  | @node _ low high level tl th inner key decision below above =>
    have hlevel : s.level n = level := congrArg BddKey.level key
    show k < s.level n ∨ n < 2 ↔ k + 1 ≤ level
    omega

end BddState.Unfolds

/-! ## What a function does -/

/-- A program from `g`, as long as no exhaustion is reported. -/
abbrev Yields {α : Type} (p : Code P α) (g : Globals P) (Q : α → Globals P → Prop) (E : Prop) :
    Prop :=
  Prog.Yields (fun g => g.kernel.Ok) p g Q E

/-- The table is well formed, and nodes with equal children are not made. -/
structure Settled (D : MtbddDomain P) (isPrime : ℕ → Bool) (g : Globals P) : Prop where
  table : ∃ flight, TableInv D isPrime flight g.kernel
  checkSameChildren : g.kernel.checkSameChildren = true
  varnum : g.kernel.env.bddvarnum ≤ maxlevel

/-- A node that the caller holds, with its tree. -/
structure Rooted (D : MtbddDomain P) (g : Globals P) (n : ℕ) (t : DTree (ℕ × Leaf P)) :
    Prop where
  held : n < 2 ∨ g.kernel.Held n
  unfolds : g.kernel.Unfolds D n t

/-- A diagram that the caller holds: from the root on the levels increase. -/
structure Diagram (D : MtbddDomain P) (g : Globals P) (n : ℕ) (t : DTree (ℕ × Leaf P)) : Prop
    extends Rooted D g n t where
  sorted : t.Sorted g.kernel.env.bddvarnum

/-- From `g` on, all was kept that the caller holds, and `own` was pushed. -/
structure Within (D : MtbddDomain P) (isPrime : ℕ → Bool) (own : List ℕ) (g g' : Globals P) :
    Prop where
  settled : Settled D isPrime g'
  evo : Evo D g.kernel g'.kernel
  refstack : g'.kernel.bddrefstack = own ++ g.kernel.bddrefstack

variable {g g' g'' : Globals P} {own : List ℕ} {n : ℕ} {t tl th : DTree (ℕ × Leaf P)}

theorem Rooted.evo (h : Rooted D g n t) (he : Evo D g.kernel g'.kernel) : Rooted D g' n t := by
  refine ⟨h.held.imp_right (he.held n), h.unfolds.congr fun m hm => ?_⟩
  rcases h.held with hn | ⟨r, hr, hrn⟩
  · have hlive := (BddState.live_iff.mp hm.live_left).1
    omega
  · exact he.same m ⟨r, hr, hrn.trans hm⟩

theorem Settled.evo (h : Settled D isPrime g)
    (htable : ∃ flight, TableInv D isPrime flight g'.kernel) (he : Evo D g.kernel g'.kernel) :
    Settled D isPrime g' :=
  ⟨htable, he.checkSameChildren.trans h.checkSameChildren,
    (congrArg BddEnv.bddvarnum he.env).trans_le h.varnum⟩

/-- The children of a node are held, too. -/
theorem Rooted.children {level : ℕ} (h : Rooted D g n (.node level tl th)) :
    2 ≤ n ∧ g.kernel.level n = level ∧ Rooted D g (g.kernel.low n) tl ∧
      Rooted D g (g.kernel.high n) th := by
  obtain ⟨low, high, inner, key, decision, below, above⟩ := h.unfolds.children
  have hsucc : g.kernel.succ n = [low, high] := by
    unfold BddState.succ
    rw [key]
    exact if_neg decision
  have hheld : g.kernel.Held n := h.held.resolve_left (by omega)
  have hchild : ∀ m ∈ g.kernel.succ n, g.kernel.IsNode m → m < 2 ∨ g.kernel.Held m :=
    fun m hm hnode => hnode.imp_right fun hl => hheld.child hm hl
  have hlow : g.kernel.low n = low := by
    unfold BddState.low
    rw [show (g.kernel.bddnodes n).low = some low from congrArg BddKey.low key]
    rfl
  have hhigh : g.kernel.high n = high := congrArg BddKey.high key
  rw [hlow, hhigh]
  exact ⟨inner, congrArg BddKey.level key, ⟨hchild low (by simp [hsucc]) below.isNode, below⟩,
    ⟨hchild high (by simp [hsucc]) above.isNode, above⟩⟩

namespace Within

theorem refl (h : Settled D isPrime g) : Within D isPrime [] g g := ⟨h, .refl _, rfl⟩

/-- A call that was made on the way. -/
theorem call (h : Within D isPrime own g g') (h' : Within D isPrime [] g' g'') :
    Within D isPrime own g g'' :=
  ⟨h'.settled, h.evo.trans h'.evo, h'.refstack.trans h.refstack⟩

theorem pushref (h : Within D isPrime own g g') (n : ℕ) :
    Within D isPrime (n :: own) g { g' with kernel := g'.kernel.pushref n } := by
  obtain ⟨flight, hi⟩ := h.settled.table
  refine ⟨⟨⟨flight, hi.restack _⟩, h.settled.checkSameChildren, h.settled.varnum⟩,
    h.evo.trans ?_, ?_⟩
  · exact (Evo.refl g'.kernel).restack (List.subset_cons_self n _)
  · show n :: g'.kernel.bddrefstack = _
    rw [h.refstack]
    rfl

theorem popref {top : List ℕ} (h : Within D isPrime (top ++ own) g g') :
    Within D isPrime own g { g' with kernel := g'.kernel.popref top.length } := by
  obtain ⟨flight, hi⟩ := h.settled.table
  have hdrop : g'.kernel.bddrefstack.drop top.length = own ++ g.kernel.bddrefstack := by
    rw [h.refstack, List.append_assoc, List.drop_left]
  refine ⟨⟨⟨flight, hi.restack _⟩, h.settled.checkSameChildren, h.settled.varnum⟩, ?_, hdrop⟩
  show Evo D g.kernel { g'.kernel with bddrefstack := g'.kernel.bddrefstack.drop top.length }
  rw [hdrop]
  exact h.evo.restack (List.subset_append_right _ _)

end Within

/-- What is pushed is held. -/
theorem Rooted.pushed (h : g.kernel.Unfolds D n t) :
    Rooted D { g with kernel := g.kernel.pushref n } n t := by
  refine ⟨h.isNode.imp_right fun hl => ⟨n, Or.inr List.mem_cons_self, .refl hl⟩, ?_⟩
  exact h.congr fun m _ => ⟨rfl, fun _ _ => rfl⟩

/-! ## Rules -/

section Rules

variable {α β : Type} {Q : α → Globals P → Prop} {E : Prop} {a b k level : ℕ}

theorem look_yields {h : Globals P → β} {f : β → Code P α} (hf : Yields (f (h g)) g Q E) :
    Yields (Code.look h >>= f) g Q E := by
  apply Prog.Yields.step
  intro b g' hs
  obtain ⟨rfl, rfl⟩ := Outcome.done.inj hs
  exact hf

theorem update_yields {h : BddState P → BddState P} {f : Unit → Code P α}
    (hf : Yields (f ()) { g with kernel := h g.kernel } Q E) :
    Yields (Code.update h >>= f) g Q E := by
  apply Prog.Yields.step
  intro b g' hs
  obtain ⟨-, rfl⟩ := Outcome.done.inj hs
  exact hf

theorem pure_yields {a : α} (h : Q a g) : Yields (pure a) g Q E := Prog.Yields.ret fun _ => h

theorem Within.pushref_yields {f : Unit → Code P α} (h : Within D isPrime own g g')
    (hn : g'.kernel.Unfolds D n t)
    (hf : ∀ g'', Within D isPrime (n :: own) g g'' → Evo D g'.kernel g''.kernel →
      Rooted D g'' n t → Yields (f ()) g'' Q E) : Yields (Code.pushref n >>= f) g' Q E :=
  update_yields (hf _ (h.pushref n)
    ((Evo.refl g'.kernel).restack (List.subset_cons_self n _)) (.pushed hn))

theorem Within.popref_yields {f : Unit → Code P α} (h : Within D isPrime own g g') (k : ℕ)
    (hk : k ≤ own.length)
    (hf : ∀ g'', Within D isPrime (own.drop k) g g'' →
      (∀ n t, g'.kernel.Unfolds D n t → g''.kernel.Unfolds D n t) → Yields (f ()) g'' Q E) :
    Yields (Code.popref k >>= f) g' Q E := by
  have hlen : (own.take k).length = k := List.length_take_of_le hk
  have hsplit : Within D isPrime (own.take k ++ own.drop k) g g' := by
    rw [List.take_append_drop]
    exact h
  have hpop := hsplit.popref
  rw [hlen] at hpop
  exact update_yields (hf _ hpop fun n t hu => hu.congr fun m _ => ⟨rfl, fun _ _ => rfl⟩)

theorem Within.readref (h : Within D isPrime own g g') (hn : own[k - 1]? = some n) :
    g'.kernel.readref k = n := by
  obtain ⟨hlt, hget⟩ := List.getElem?_eq_some_iff.mp hn
  unfold BddState.readref
  rw [h.refstack, List.drop_append_of_le_length (by omega), List.drop_eq_getElem_cons hlt, hget]
  rfl

theorem Within.readref_yields {f : ℕ → Code P α} (h : Within D isPrime own g g')
    (hn : own[k - 1]? = some n) (hf : Yields (f n) g' Q E) :
    Yields (Code.readref k >>= f) g' Q E := by
  apply look_yields
  rw [h.readref hn]
  exact hf

/-- The tree of what `bdd_makenode` returns. -/
noncomputable def made (check : Bool) (level : ℕ) (tl th : DTree (ℕ × Leaf P)) :
    DTree (ℕ × Leaf P) :=
  if check then .join level tl th else .node level tl th

/-- `bdd_makenode`, whether or not it checks the children. -/
theorem bddMakenode_yields {flight : List ℕ} (hi : TableInv D isPrime flight g.kernel)
    (hlevel : level < maxlevel) (hl : Rooted D g a tl) (hh : Rooted D g b th) :
    Yields (Code.makenode D isPrime level a b) g (fun r g' =>
      (∃ flight, TableInv D isPrime flight g'.kernel) ∧ Evo D g.kernel g'.kernel ∧
        g'.kernel.bddrefstack = g.kernel.bddrefstack ∧
        g'.kernel.Unfolds D r (made g.kernel.checkSameChildren level tl th)) E := by
  have hmax : maxlevel < 2 ^ 21 := by decide
  have hm : MakeSpec D isPrime flight g.kernel level a b
      (bddMakenode D isPrime g.kernel level a b) :=
    bddMakenode_spec hi (show level < 2 ^ 21 by omega) (.inl (by omega)) (fun h => by omega)
  apply Prog.Yields.step
  intro r g' hs
  unfold makenodeStep at hs
  split at hs
  · exact nomatch hs
  generalize bddMakenode D isPrime g.kernel level a b = o at hm hs
  obtain ⟨rfl, rfl⟩ := Outcome.done.inj hs
  apply Prog.Yields.ret
  intro hok
  refine ⟨⟨flight, hm.inv⟩, hm.evo, hm.refstack, ?_⟩
  show o.2.Unfolds D o.1 _
  cases hm.outcome with
  | skip check _ same node state =>
    obtain rfl : tl = th := hl.unfolds.unique (same ▸ hh.unfolds)
    rw [check, made, if_pos rfl, DTree.join_self, node, state]
    exact hl.unfolds
  | full _ errorcond => exact absurd (hok.symm.trans errorcond) Bool.false_ne_true
  | node differ live key _ _ =>
    have hnode : o.2.Unfolds D o.1 (.node level tl th) :=
      .node (BddState.live_iff.mp live).1 key (by omega)
        (@Rooted.evo P D g { g with kernel := o.2 } a tl hl hm.evo).unfolds
        (@Rooted.evo P D g { g with kernel := o.2 } b th hh hm.evo).unfolds
    cases hcheck : g.kernel.checkSameChildren with
    | false => exact hnode
    | true =>
      have hne : tl ≠ th := by
        rintro rfl
        exact differ hcheck (by omega) (hl.unfolds.inj hi hh.unfolds)
      rw [made, if_pos rfl, DTree.join_of_ne hne]
      exact hnode

/-- What a call returns: it was well behaved, and the tree of its result is in `C`. -/
def Gives (D : MtbddDomain P) (isPrime : ℕ → Bool) (g : Globals P)
    (C : DTree (ℕ × Leaf P) → Prop) (r : ℕ) (g' : Globals P) : Prop :=
  Within D isPrime [] g g' ∧ ∃ t, C t ∧ g'.kernel.Unfolds D r t

theorem makenode_yields (hs : Settled D isPrime g) (hlevel : level < maxlevel)
    (hl : Rooted D g a tl) (hh : Rooted D g b th) :
    Yields (Code.makenode D isPrime level a b) g (Gives D isPrime g (· = .join level tl th)) E := by
  obtain ⟨flight, hi⟩ := hs.table
  apply (bddMakenode_yields hi hlevel hl hh).mono _ id
  intro r g' _ hr
  obtain ⟨htable, hevo, hstack, hu⟩ := hr
  rw [hs.checkSameChildren] at hu
  exact ⟨⟨hs.evo htable hevo, hevo, hstack⟩, _, rfl, hu⟩

theorem TableInv.setCheck {flight : List ℕ} (h : TableInv D isPrime flight s) (check : Bool) :
    TableInv D isPrime flight { s with checkSameChildren := check } := { h with }

/-- A node for a skipped level. -/
theorem virtualNode_yields (hs : Settled D isPrime g) (hlevel : level < maxlevel)
    (hn : Rooted D g n t) :
    Yields (Code.virtualNode D isPrime level n) g
      (Gives D isPrime g (· = .node level t t)) E := by
  obtain ⟨flight, hi⟩ := hs.table
  have hi' := hi.setCheck false
  have hn' : Rooted D { g with kernel := { g.kernel with checkSameChildren := false } } n t :=
    ⟨hn.held, hn.unfolds.congr fun m _ => ⟨rfl, fun _ _ => rfl⟩⟩
  have hmake := bddMakenode_yields (E := E) (show TableInv D isPrime flight
    ({ g with kernel := { g.kernel with checkSameChildren := false } } : Globals P).kernel from hi')
    hlevel hn' hn'
  unfold Code.virtualNode
  apply update_yields
  apply hmake.bind
  intro r g' _ hr
  obtain ⟨⟨flight', hi'⟩, hevo, hstack, hu⟩ := hr
  apply update_yields
  apply pure_yields
  refine ⟨⟨⟨⟨flight', hi'.setCheck true⟩, rfl, ?_⟩, ?_, hstack⟩, _, rfl,
    hu.congr fun m _ => ⟨rfl, fun _ _ => rfl⟩⟩
  · exact (congrArg BddEnv.bddvarnum hevo.env).trans_le hs.varnum
  exact ⟨hevo.errorcond, hevo.held, fun n hn => ⟨(hevo.same n hn).key, (hevo.same n hn).value⟩,
    hevo.const, hevo.refcou, hevo.env, hs.checkSameChildren.symm, hevo.constKey,
    hevo.told⟩

end Rules

end MoToBuddy.Bdd
