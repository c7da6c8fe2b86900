import MoToBuddy.Bdd.Makenode
import MoToBuddy.Lib.DTree

/-!
# The diagram below a node

`Reads` relates a node to the decision tree that it represents. `GraphInv` says that the nodes
form a diagram: there are no dangling children, and levels increase towards the constants. Then
every node has a tree, and it is the only node with that tree (`Reads.inj`).
-/

namespace MoToBuddy.Bdd

open Chained Marking Decision

/-- A leaf: a constant, or a value with its terminal type. -/
inductive Leaf (P : Type*)
  | const (b : Bool)
  | value (type : ℕ) (v : P)
  deriving DecidableEq, Repr

variable {P : Type*} {D : MtbddDomain P} {isPrime : ℕ → Bool} {flight : List ℕ}
  {s s' : BddState P}

/-! ## Boolean trees -/

/-- All leaves are constants. -/
def IsBool : DTree (Leaf P) → Prop
  | .leaf (.const _) => True
  | .leaf (.value _ _) => False
  | .node _ low high => IsBool low ∧ IsBool high

/-- The boolean function of a tree. -/
def evalBool (t : DTree (Leaf P)) (x : ℕ → Bool) : Bool :=
  match t.eval x with
  | .const b => b
  | .value _ _ => false

theorem evalBool_node (level : ℕ) (low high : DTree (Leaf P)) (x : ℕ → Bool) :
    evalBool (.node level low high) x = if x level then evalBool high x else evalBool low x := by
  unfold evalBool
  rw [DTree.eval_node]
  cases x level <;> rfl

theorem eval_of_isBool {t : DTree (Leaf P)} (h : IsBool t) (x : ℕ → Bool) :
    t.eval x = .const (evalBool t x) := by
  induction t with
  | leaf l =>
    cases l with
    | const b => rfl
    | value type v => exact h.elim
  | node level low high ihl ihh =>
    rw [evalBool_node, DTree.eval_node, ihl h.1, ihh h.2]
    split <;> rfl

/-! ## Reading a diagram -/

/-- Node `n` represents the tree. -/
inductive BddState.Reads (D : MtbddDomain P) (s : BddState P) : ℕ → DTree (Leaf P) → Prop
  | const (b : Bool) : s.Reads D b.toNat (.leaf (.const b))
  | terminal {n type : ℕ} {v : P} (live : s.live n = true) (level : (s.key n).level = maxlevel)
      (low : (s.key n).low = some type) (value : mtbddGetvalue D s (s.key n).high = some v) :
      s.Reads D n (.leaf (.value type v))
  | node {n low high level : ℕ} {tl th : DTree (Leaf P)} (inner : 2 ≤ n)
      (key : s.key n = ⟨some low, high, level⟩) (decision : level ≠ maxlevel)
      (below : s.Reads D low tl) (above : s.Reads D high th) : s.Reads D n (.node level tl th)

namespace BddState.Reads

variable {n m : ℕ} {t t' : DTree (Leaf P)}

theorem live_of_key {low high level : ℕ} (inner : 2 ≤ n)
    (key : s.key n = ⟨some low, high, level⟩) : s.live n = true :=
  BddState.live_iff.mpr ⟨inner, low, congrArg BddKey.low key⟩

theorem isNode (h : s.Reads D n t) : s.IsNode n := by
  cases h with
  | const b => cases b <;> exact Or.inl (by decide)
  | terminal live _ _ _ => exact Or.inr live
  | node inner key _ _ _ => exact Or.inr (live_of_key inner key)

theorem toNat_lt (b : Bool) : b.toNat < 2 := by cases b <;> decide

/-- A node represents one tree only. -/
theorem unique (h : s.Reads D n t) (h' : s.Reads D n t') : t = t' := by
  induction h generalizing t' with
  | const b =>
    generalize hn : b.toNat = n at h'
    have hlt : n < 2 := hn ▸ toNat_lt b
    cases h' with
    | const b' => cases b <;> cases b' <;> first | rfl | exact absurd hn (by decide)
    | terminal live _ _ _ =>
      have := (BddState.live_iff.mp live).1
      omega
    | node inner _ _ _ _ => omega
  | @terminal n type v live level low value =>
    cases h' with
    | const b' => exact absurd (BddState.live_iff.mp live).1 (by have := toNat_lt b'; omega)
    | terminal _ _ low' value' =>
      rw [low] at low'
      rw [value] at value'
      rw [Option.some.inj low', Option.some.inj value']
    | node _ key decision _ _ => exact absurd ((congrArg BddKey.level key).symm.trans level) decision
  | @node n low high level tl th inner key decision below above ihl ihh =>
    cases h' with
    | const b' => exact absurd inner (by have := toNat_lt b'; omega)
    | terminal _ level' _ _ => exact absurd ((congrArg BddKey.level key).symm.trans level') decision
    | node _ key' _ below' above' =>
      rw [key] at key'
      obtain ⟨hlow, rfl, rfl⟩ := BddKey.mk.inj key'
      obtain rfl := Option.some.inj hlow
      rw [ihl below', ihh above']

/-- The tree only depends on the nodes below. -/
theorem congr (h : s.Reads D n t) (hsame : ∀ m, Reach s.live s.succ n m → SameNode D s s' m) :
    s'.Reads D n t := by
  induction h with
  | const b => exact .const b
  | @terminal n type v live level low value =>
    have hn := hsame n (.refl live)
    refine .terminal (hn.live live) (by rw [hn.key]; exact level) (by rw [hn.key]; exact low) ?_
    rw [hn.key, ← value]
    refine BddState.getvalue_congr (s := s) (T := s'.terminals) fun hD => ?_
    exact hn.value _ (BddState.slot_eq live level hD)
  | @node n low high level tl th inner key decision below above ihl ihh =>
    have hlive := live_of_key inner key
    have hsucc : s.succ n = [low, high] := by
      unfold BddState.succ
      rw [key]
      exact if_neg decision
    refine .node inner ?_ decision (ihl fun m hm => ?_) (ihh fun m hm => ?_)
    · rw [(hsame n (.refl hlive)).key]
      exact key
    · exact hsame m (Reach.child hlive (by simp [hsucc]) hm)
    · exact hsame m (Reach.child hlive (by simp [hsucc]) hm)

/-- The children of a node with a decision tree. -/
theorem children {level : ℕ} {tl th : DTree (Leaf P)} (h : s.Reads D n (.node level tl th)) :
    ∃ low high, 2 ≤ n ∧ s.key n = ⟨some low, high, level⟩ ∧ level ≠ maxlevel ∧
      s.Reads D low tl ∧ s.Reads D high th := by
  cases h with
  | node inner key decision below above => exact ⟨_, _, inner, key, decision, below, above⟩

/-- The value of a terminal determines the node. -/
theorem inj_terminal (hi : TableInv D isPrime flight s) (hD : D.Lawful) {type : ℕ} {v : P}
    (h : s.Reads D n (.leaf (.value type v))) (h' : s.Reads D m (.leaf (.value type v))) :
    n = m := by
  cases h with
  | terminal live level low value =>
    cases h' with
    | terminal live' level' low' value' =>
      cases hst : D.stored with
      | true =>
        have hslot := BddState.slot_eq live level hst
        have hslot' := BddState.slot_eq live' level' hst
        have hget : ∀ high, mtbddGetvalue D s high = s.terminals.values high := by
          intro high
          unfold MtbddDomain.stored at hst
          unfold mtbddGetvalue
          cases hd : D.domaintype <;> rw [hd] at hst <;> first | rfl | simp at hst
        rw [hget] at value value'
        have htype : D.domaintype = .custom → (D.comparefun type).isSome := by
          intro hc
          obtain ⟨type', -, hlow, hcmp⟩ := hi.type hc n live level
          rw [low] at hlow
          rw [Option.some.inj hlow]
          exact hcmp
        refine hi.termUnique n m _ _ v v hslot hslot' (low.trans low'.symm) value value' ?_
        rw [low, Option.getD_some, MtbddDomain.twins_iff]
        have hself := hD.refl hst type v htype
        exact ⟨hself, hself, rfl⟩
      | false =>
        -- the value is a word in the node, or the domain has no values
        have hshort : D.domaintype.notShort = false ∧
            ∀ high, mtbddGetvalue D s high = some (D.ofWord (.ofNat high)) := by
          unfold MtbddDomain.stored at hst
          unfold mtbddGetvalue at value ⊢
          unfold DomainTypes.notShort
          cases hd : D.domaintype <;> rw [hd] at hst value <;> first
            | exact ⟨rfl, fun _ => rfl⟩
            | exact absurd hst.symm Bool.false_ne_true
            | exact absurd value.symm (Option.some_ne_none v)
        obtain ⟨hlow, hlt⟩ := hi.word hshort.1 n live level
        obtain ⟨hlow', hlt'⟩ := hi.word hshort.1 m live' level'
        rw [hshort.2] at value value'
        have hword := hD.ofWord _ _ ((Option.some.inj value).trans (Option.some.inj value').symm)
        have hhigh : (s.key n).high = (s.key m).high := by
          have h32 := congrArg UInt32.toNat hword
          rw [UInt32.toNat_ofNat', UInt32.toNat_ofNat', Nat.mod_eq_of_lt hlt,
            Nat.mod_eq_of_lt hlt'] at h32
          exact h32
        apply hi.unique n m live live' (Or.inr hshort.1)
        rw [show s.key n = ⟨(s.key n).low, (s.key n).high, (s.key n).level⟩ from rfl, hlow, hhigh,
          level]
        rw [show s.key m = ⟨(s.key m).low, (s.key m).high, (s.key m).level⟩ from rfl, hlow', level']

/-- A node is the only one with its tree. -/
theorem inj (hi : TableInv D isPrime flight s) (hD : D.Lawful ∨ IsBool t) (h : s.Reads D n t)
    (h' : s.Reads D m t) : n = m := by
  induction t generalizing n m with
  | leaf l =>
    cases l with
    | const b =>
      cases h with
      | const _ =>
        generalize hl : (DTree.leaf (Leaf.const b) : DTree (Leaf P)) = u at h'
        cases h' with
        | const b' =>
          cases hl
          rfl
        | terminal _ _ _ _ => cases hl
        | node _ _ _ _ _ => cases hl
    | value type v => exact inj_terminal hi (hD.resolve_right id) h h'
  | node level tl th ihl ihh =>
    obtain ⟨low, high, inner, key, decision, below, above⟩ := h.children
    obtain ⟨low', high', inner', key', -, below', above'⟩ := h'.children
    have hlow : low = low' := ihl (hD.imp_right And.left) below below'
    have hhigh : high = high' := ihh (hD.imp_right And.right) above above'
    apply hi.unique n m (live_of_key inner key) (live_of_key inner' key')
    · left
      rw [key]
      exact decision
    · rw [key, key', hlow, hhigh]

end BddState.Reads

end MoToBuddy.Bdd
