import MoToBuddy.Bdd.MtbddCode
import MoToBuddy.Bdd.Sections

/-!
# Programs that call the library

`Disciplined` is the discipline that the recursions, the MTBDD functions and programs of calls
follow: they pop what they pushed and nothing else. With the flag set such a program may call the
functions of the interface and make nodes for skipped levels. Every function of `mtbdd.c` and
`mtbddop.cxx` is disciplined as soon as its callbacks are.
-/

namespace MoToBuddy.Bdd

open Jumping Code

variable {P : Type} {α β : Type}

/-- A function that does not switch reordering on or off either. -/
structure Aside (isPrime : ℕ → Bool) (g g' : Globals P) : Prop where
  kernel : Untouched isPrime g.kernel g'.kernel
  reorderdisabled : g'.reorderdisabled = g.reorderdisabled

/-- A program with `n` entries of its own on the reference stack that pops no others and leaves
`p a` with the result `a`. The flag allows calls. -/
inductive Disciplined (D : MtbddDomain P) (isPrime : ℕ → Bool) (R : Reordering P isPrime) :
    Bool → ℕ → {α : Type} → (α → ℕ) → Code P α → Prop
  | ret {c : Bool} {n : ℕ} {α : Type} {p : α → ℕ} (a : α) (h : p a = n) :
      Disciplined D isPrime R c n p (.ret a)
  | stuck {c : Bool} {n : ℕ} {α : Type} {p : α → ℕ} : Disciplined D isPrime R c n p .stuck
  | bind {c : Bool} {n : ℕ} {α β : Type} {p : α → ℕ} {q : β → ℕ} {x : Code P α}
      {f : α → Code P β} (hx : Disciplined D isPrime R c n p x)
      (hf : ∀ a, Disciplined D isPrime R c (p a) q (f a)) : Disciplined D isPrime R c n q (x >>= f)
  | look {c : Bool} {n : ℕ} {α : Type} (h : Globals P → α) :
      Disciplined D isPrime R c n (fun _ => n) (look h)
  | update {c : Bool} {n : ℕ} {h : BddState P → BddState P} (hh : ∀ s, Untouched isPrime s (h s)) :
      Disciplined D isPrime R c n (fun _ => n) (update h)
  | makenode {c : Bool} {n : ℕ} (level low high : ℕ) :
      Disciplined D isPrime R c n (fun _ => n) (makenode D isPrime level low high)
  | pushref {c : Bool} {n : ℕ} (x : ℕ) : Disciplined D isPrime R c n (fun _ => n + 1) (pushref x)
  | popref {c : Bool} {n : ℕ} (k : ℕ) (hk : k ≤ n) :
      Disciplined D isPrime R c n (fun _ => n - k) (popref k)
  /-- Without a free slot the child itself comes back, and the entries are counted differently. -/
  | virtualNode {n k : ℕ} {β : Type} {q r : β → ℕ} (level child : ℕ) {f : ℕ → Code P β}
      (hf : ∀ res, res ≠ child → Disciplined D isPrime R true n q (f res))
      (hchild : Disciplined D isPrime R true k r (f child)) :
      Disciplined D isPrime R true n q (virtualNode D isPrime level child >>= f)
  | virtualTarget {n : ℕ} (control operand : ℕ) :
      Disciplined D isPrime R true n (fun _ => n) (virtualTarget D isPrime control operand)
  | mtbdd {n : ℕ} {α : Type} {body : Code P α} (h : Disciplined D isPrime R true 0 (fun _ => 0) body) :
      Disciplined D isPrime R true n (fun _ => n) (.call .mtbdd body .ret)
  | operator {n : ℕ} (op : Operator P)
      (hearly : ∀ g res s, op.early g = some (res, s) → Untouched isPrime g.kernel s)
      (hprepare : ∀ s, Untouched isPrime s (op.prepare s))
      (hrec : ∀ s, Disciplined D isPrime R false 0 (fun _ => 0) (op.recursion s)) :
      Disciplined D isPrime R true n (fun _ => n) (.call (.operator op.leaves) (op.body isPrime R) .ret)
  | reorder {n : ℕ} (method : ℕ) :
      Disciplined D isPrime R true n (fun _ => n) (.call .reorder (bddReorder R method) .ret)
  | disableReorder {n : ℕ} :
      Disciplined D isPrime R true n (fun _ => n) (.call .disableReorder disableReorder .ret)
  | enableReorder {n : ℕ} :
      Disciplined D isPrime R true n (fun _ => n) (.call .enableReorder enableReorder .ret)
  | setvarnum {n : ℕ} (num : ℤ) (memory : Allocation) :
      Disciplined D isPrime R true n (fun _ => n)
        (.call (.setvarnum num memory) (Code.bddSetvarnum D isPrime num memory) .ret)
  | extvarnum {n : ℕ} (num : ℤ) (memory : Allocation) :
      Disciplined D isPrime R true n (fun _ => n)
        (.call (.extvarnum num) (bddExtvarnum D isPrime num memory) .ret)
  | support {n : ℕ} (r : ℕ) (memory : Bool) :
      Disciplined D isPrime R true n (fun _ => n)
        (.call (.support r memory) (bddSupport D isPrime r memory) .ret)
  | satone {n : ℕ} (r : ℕ) :
      Disciplined D isPrime R true n (fun _ => n) (.call (.satone r) (bddSatone D isPrime r) .ret)
  | satoneset {n : ℕ} (r var pol : ℕ) :
      Disciplined D isPrime R true n (fun _ => n)
        (.call (.satoneset r var pol) (bddSatoneset D isPrime r var pol) .ret)
  | fullsatone {n : ℕ} (r : ℕ) :
      Disciplined D isPrime R true n (fun _ => n)
        (.call (.fullsatone r) (bddFullsatone D isPrime r) .ret)
  | gbc {n : ℕ} : Disciplined D isPrime R true n (fun _ => n) (.call .kernel (gbc D) .ret)
  | kernel {n : ℕ} {h : Globals P → Globals P} (hh : ∀ g, Aside isPrime g (h g)) :
      Disciplined D isPrime R true n (fun _ => n) (.call .kernel (setGlobals h) .ret)

variable {D : MtbddDomain P} {isPrime : ℕ → Bool} {R : Reordering P isPrime} {c : Bool}

namespace Disciplined

theorem pure {n : ℕ} (a : α) : Disciplined D isPrime R c n (fun _ => n) (pure a : Code P α) :=
  .ret a rfl

/-- The count of the own entries, whatever it is called. -/
theorem cast {n n' : ℕ} {p : α → ℕ} {x : Code P α} (h : Disciplined D isPrime R c n p x)
    (hn : n = n') : Disciplined D isPrime R c n' p x := hn ▸ h

theorem error {n : ℕ} (e : BddError) : Disciplined D isPrime R c n (fun _ => n) (Code.error e) :=
  .update fun _ => .of_nodes rfl rfl rfl rfl

theorem readref {n : ℕ} (k : ℕ) : Disciplined D isPrime R c n (fun _ => n) (Code.readref k) :=
  .look _

theorem lowOf {n : ℕ} (m : ℕ) : Disciplined D isPrime R c n (fun _ => n) (Code.lowOf m) := .look _

theorem highOf {n : ℕ} (m : ℕ) : Disciplined D isPrime R c n (fun _ => n) (Code.highOf m) := .look _

theorem levelOf {n : ℕ} (m : ℕ) : Disciplined D isPrime R c n (fun _ => n) (Code.levelOf m) :=
  .look _

theorem checka {n r : ℕ} {body : Code P ℕ} (h : Disciplined D isPrime R c n (fun _ => n) body) :
    Disciplined D isPrime R c n (fun _ => n) (Code.checka r body) := by
  unfold Code.checka
  apply bind (.look _)
  intro o
  cases o with
  | some e => exact .bind (.error e) fun _ => .pure 0
  | none => exact h

theorem memoUnless {n : ℕ} {k : CacheId} {key : CacheKey} {body : Code P (ℕ × Bool)}
    (h : Disciplined D isPrime R c n (fun _ => n) body) :
    Disciplined D isPrime R c n (fun _ => n) (Code.memoUnless k key body) := by
  unfold Code.memoUnless
  apply bind (.look _)
  intro i
  apply bind (.look _)
  intro found
  cases found with
  | some res => exact .pure res
  | none =>
    apply bind h
    intro r
    dsimp only
    split_ifs
    · exact .pure _
    · exact .bind (.update fun _ => .of_nodes rfl rfl rfl rfl) fun _ => .pure _

theorem memo {n : ℕ} {k : CacheId} {hash : UInt32} {hit : BddCacheData → Bool}
    {fill : BddCacheData → ℕ → BddCacheData} {body : Code P ℕ}
    (h : Disciplined D isPrime R c n (fun _ => n) body) :
    Disciplined D isPrime R c n (fun _ => n) (Code.memo k hash hit fill body) := by
  unfold Code.memo
  apply bind (.look _)
  intro i
  apply bind (.look _)
  intro found
  cases found with
  | some res => exact .pure res
  | none => exact .bind h fun res => .bind (.update fun _ => .of_nodes rfl rfl rfl rfl) fun _ => .pure res

theorem nodeAt {n : ℕ} (m low high : ℕ) :
    Disciplined D isPrime R c n (fun _ => n) (Code.nodeAt D isPrime m low high) :=
  .bind (.look _) fun level => .makenode level low high

theorem branch {n : ℕ} {lowCall highCall : Code P ℕ} {combine : ℕ → ℕ → Code P ℕ}
    (hlow : ∀ n, Disciplined D isPrime R c n (fun _ => n) lowCall)
    (hhigh : ∀ n, Disciplined D isPrime R c n (fun _ => n) highCall)
    (hcombine : ∀ n low high, Disciplined D isPrime R c n (fun _ => n) (combine low high)) :
    Disciplined D isPrime R c n (fun _ => n) (Code.branch lowCall highCall combine) := by
  unfold Code.branch
  apply bind (hlow n)
  intro r0
  apply bind (.pushref r0)
  intro _
  apply bind (hhigh (n + 1))
  intro r1
  apply bind (.pushref r1)
  intro _
  apply bind (.readref 2)
  intro low
  apply bind (.readref 1)
  intro high
  apply bind (hcombine (n + 1 + 1) low high)
  intro res
  apply bind (.popref 2 (by omega))
  intro _
  exact .pure res

theorem splitTwo {n : ℕ} {rec' : ℕ → ℕ → Code P ℕ}
    (h : ∀ n l r, Disciplined D isPrime R c n (fun _ => n) (rec' l r)) (l r : ℕ) :
    Disciplined D isPrime R c n (fun _ => n) (Code.splitTwo D isPrime rec' l r) := by
  unfold Code.splitTwo
  apply bind (.look _)
  intro s
  split_ifs
  · apply branch _ _ fun n => .nodeAt l
    · intro n
      exact .bind (.lowOf l) fun a => .bind (.lowOf r) fun b => h n a b
    · intro n
      exact .bind (.highOf l) fun a => .bind (.highOf r) fun b => h n a b
  · apply branch _ _ fun n => .nodeAt l
    · intro n
      exact .bind (.lowOf l) fun a => h n a r
    · intro n
      exact .bind (.highOf l) fun a => h n a r
  · apply branch _ _ fun n => .nodeAt r
    · intro n
      exact .bind (.lowOf r) fun b => h n l b
    · intro n
      exact .bind (.highOf r) fun b => h n l b

theorem splitAt {n : ℕ} {rec' : ℕ → ℕ → ℕ → Code P ℕ}
    (hrec : ∀ n f g h, Disciplined D isPrime R c n (fun _ => n) (rec' f g h)) (f g h top : ℕ)
    (sf sg sh : Bool) :
    Disciplined D isPrime R c n (fun _ => n)
      (Code.splitAt D isPrime rec' f g h top sf sg sh) := by
  have hside : ∀ (side : ℕ → Code P ℕ) (n m : ℕ) (split : Bool),
      Disciplined D isPrime R c n (fun _ => n) (side m) →
      Disciplined D isPrime R c n (fun _ => n) (if split then side m else Pure.pure m) := by
    intro side n m split hm
    split_ifs
    · exact hm
    · exact .pure m
  unfold Code.splitAt
  apply branch _ _ fun n => .nodeAt top
  · intro n
    apply bind (hside Code.lowOf n f sf (.lowOf f))
    intro a
    apply bind (hside Code.lowOf n g sg (.lowOf g))
    intro b
    apply bind (hside Code.lowOf n h sh (.lowOf h))
    intro d
    exact hrec n a b d
  · intro n
    apply bind (hside Code.highOf n f sf (.highOf f))
    intro a
    apply bind (hside Code.highOf n g sg (.highOf g))
    intro b
    apply bind (hside Code.highOf n h sh (.highOf h))
    intro d
    exact hrec n a b d

theorem splitThree {n : ℕ} {rec' : ℕ → ℕ → ℕ → Code P ℕ}
    (hrec : ∀ n f g h, Disciplined D isPrime R c n (fun _ => n) (rec' f g h)) (f g h : ℕ) :
    Disciplined D isPrime R c n (fun _ => n) (Code.splitThree D isPrime rec' f g h) := by
  unfold Code.splitThree
  apply bind (.look _)
  intro s
  dsimp only
  split_ifs <;> exact splitAt hrec f g h _ _ _ _

end Disciplined

/-! ## The recursions of the operators -/

theorem notRec_disciplined (fuel n r : ℕ) :
    Disciplined D isPrime R c n (fun _ => n) (Code.notRec D isPrime fuel r) := by
  induction fuel generalizing n r with
  | zero => exact .stuck
  | succ fuel ih =>
    unfold Code.notRec
    split_ifs
    · exact .pure 1
    · exact .pure 0
    · apply Disciplined.memo
      apply Disciplined.branch _ _ fun n => .nodeAt r
      · intro n
        exact .bind (.lowOf r) fun low => ih n low
      · intro n
        exact .bind (.highOf r) fun high => ih n high

theorem applyRec_disciplined (op : BddOp) (fuel n l r : ℕ) :
    Disciplined D isPrime R c n (fun _ => n) (Code.applyRec D isPrime op fuel l r) := by
  induction fuel generalizing n l r with
  | zero => exact .stuck
  | succ fuel ih =>
    unfold Code.applyRec
    cases applyShortcut op l r with
    | some res => exact .pure res
    | none =>
      dsimp only
      split_ifs
      · exact .pure _
      · exact .memo (.splitTwo ih l r)

theorem iteRec_disciplined (fuel n f g h : ℕ) :
    Disciplined D isPrime R c n (fun _ => n) (Code.iteRec D isPrime fuel f g h) := by
  induction fuel generalizing n f g h with
  | zero => exact .stuck
  | succ fuel ih =>
    unfold Code.iteRec
    split_ifs
    · exact .pure g
    · exact .pure h
    · exact .pure g
    · exact .pure f
    · exact notRec_disciplined depth n f
    · exact .memo (.splitThree ih f g h)

theorem quantRec_disciplined (op : BddOp) (quantid : UInt32) (quantlast fuel n r : ℕ) :
    Disciplined D isPrime R c n (fun _ => n)
      (Code.quantRec D isPrime op quantid quantlast fuel r) := by
  induction fuel generalizing n r with
  | zero => exact .stuck
  | succ fuel ih =>
    unfold Code.quantRec
    apply Disciplined.bind (.look _)
    intro below
    split_ifs
    · exact .pure r
    · apply Disciplined.memo
      apply Disciplined.branch
      · intro n
        exact .bind (.lowOf r) fun low => ih n low
      · intro n
        exact .bind (.highOf r) fun high => ih n high
      · intro n low high
        unfold Code.quantAt
        apply Disciplined.bind (.look _)
        intro marked
        split_ifs
        · exact applyRec_disciplined op depth n low high
        · exact .nodeAt r low high

/-! ## The operators -/

theorem checkAll_untouched {args : List ℕ} {g : Globals P} {res : ℕ} {s : BddState P}
    (h : checkAll args g = some (res, s)) : Untouched isPrime g.kernel s := by
  obtain ⟨e, -, he⟩ := Option.map_eq_some_iff.mp h
  obtain ⟨-, rfl⟩ := Prod.mk.inj he
  exact .of_nodes rfl rfl rfl rfl

/-- Checks of the arguments, and a simple case of its own. -/
theorem checkOr_untouched {args : List ℕ} {g : Globals P} {b : Prop} [Decidable b]
    {simple : ℕ × BddState P} (hsimple : Untouched isPrime g.kernel simple.2) {res : ℕ} {s : BddState P}
    (h : (checkAll args g).or (if b then some simple else none) = some (res, s)) :
    Untouched isPrime g.kernel s := by
  rcases Option.or_eq_some_iff.mp h with h | ⟨-, h⟩
  · exact checkAll_untouched h
  · split_ifs at h
    rw [Option.some.inj h] at hsimple
    exact hsimple

theorem varset2vartable_untouched (s : BddState P) (var : ℕ) :
    Untouched isPrime s (((varset2vartable s var).map Prod.snd).getD s) := by
  unfold varset2vartable
  dsimp only
  generalize varsetLoop _ _ _ _ _ _ = o
  cases o with
  | none => exact .of_nodes rfl rfl rfl rfl
  | some p => exact .of_nodes rfl rfl rfl rfl

variable {n : ℕ}

theorem bddNot_disciplined (r : ℕ) : Disciplined D isPrime R true n (fun _ => n)
    (.call (.operator (Code.bddNot D isPrime r).leaves) ((Code.bddNot D isPrime r).body isPrime R)
      .ret) :=
  .operator _ (fun _ _ _ => checkAll_untouched) (fun _ => .of_nodes rfl rfl rfl rfl)
    fun _ => notRec_disciplined depth 0 r

theorem bddIte_disciplined (f g h : ℕ) : Disciplined D isPrime R true n (fun _ => n)
    (.call (.operator (Code.bddIte D isPrime f g h).leaves)
      ((Code.bddIte D isPrime f g h).body isPrime R) .ret) :=
  .operator _ (fun _ _ _ => checkAll_untouched) (fun _ => .of_nodes rfl rfl rfl rfl)
    fun _ => iteRec_disciplined depth 0 f g h

theorem bddApply_disciplined (l r op : ℕ) : Disciplined D isPrime R true n (fun _ => n)
    (.call (.operator (Code.bddApply D isPrime l r op).leaves)
      ((Code.bddApply D isPrime l r op).body isPrime R) .ret) := by
  apply Disciplined.operator
  · intro g res s h
    exact checkOr_untouched (.of_nodes rfl rfl rfl rfl) h
  · exact fun _ => .of_nodes rfl rfl rfl rfl
  · intro s
    unfold Code.bddApply
    dsimp only
    cases BddOp.ofCode op with
    | some op => exact applyRec_disciplined op depth 0 l r
    | none => exact .stuck

theorem bddQuant_disciplined (q : Quantifier) (r var : ℕ) :
    Disciplined D isPrime R true n (fun _ => n)
      (.call (.operator (Code.bddQuant D isPrime q r var).leaves)
        ((Code.bddQuant D isPrime q r var).body isPrime R) .ret) := by
  apply Disciplined.operator
  · intro g res s h
    exact checkOr_untouched (.of_nodes rfl rfl rfl rfl) h
  · exact fun s => varset2vartable_untouched s var
  · intro s
    unfold Code.bddQuant
    dsimp only
    cases varset2vartable s var with
    | some p => exact quantRec_disciplined _ _ p.1 depth 0 r
    | none => exact .stuck

/-! ## Terminals and leaves -/

theorem newTerminal_disciplined (value : P) (type : ℕ) (words : ℕ × ℕ) :
    Disciplined D isPrime R c n (fun _ => n) (Code.newTerminal D isPrime value type words) := by
  unfold Code.newTerminal
  refine .bind (.look _) fun valIndex => .bind (.update fun _ => .of_nodes rfl rfl rfl rfl) fun _ => ?_
  apply Disciplined.bind (.makenode _ _ _)
  intro res
  have hslot : ∀ (s : BddState P) (node : BddNode), node.low.isSome = true → ∀ terminals,
      Untouched isPrime s { s.setNode res node with terminals := terminals } := by
    intro s node hlow terminals
    have hset : Untouched isPrime s (s.setNode res node) := .setNode (.inl hlow)
    exact hset.trans (.of_nodes rfl rfl rfl rfl)
  exact .bind (.update fun s => hslot s _ rfl _) fun _ => .pure res

theorem mtbddMaketerminal_disciplined (value : P) (type : ℕ) :
    Disciplined D isPrime R c n (fun _ => n) (Code.mtbddMaketerminal D isPrime value type) := by
  unfold Code.mtbddMaketerminal
  dsimp only
  cases D.domaintype with
  | intval | floatval | unsignedval => exact .makenode _ _ _
  | longval | doubleval =>
    apply Disciplined.bind (.look _)
    intro found
    split_ifs
    · exact .pure found
    · exact newTerminal_disciplined value type _
  | custom =>
    dsimp only
    split_ifs
    · exact .bind (.error _) fun _ => .bind (.update fun _ => .of_nodes rfl rfl rfl rfl) fun _ => .pure 0
    · apply Disciplined.bind (.look _)
      intro found
      split_ifs
      · exact .bind (.update fun _ => .of_nodes rfl rfl rfl rfl) fun _ => .pure found
      · apply Disciplined.bind (newTerminal_disciplined value type _)
        intro res
        exact .bind (.update fun _ => .setNode (.inr rfl)) fun _ => .pure res
  | charval | ldoubleval | ulongval | unset => exact .stuck

theorem mtbddLeafResult_disciplined (value : Option P) (type l : ℕ) (valueL : Option P)
    (right : Option (ℕ × Option P)) : Disciplined D isPrime R c n (fun _ => n)
      (Code.mtbddLeafResult D isPrime value type l valueL right) := by
  unfold Code.mtbddLeafResult
  cases value with
  | none => exact .pure _
  | some value =>
    have hnew : Disciplined D isPrime R c n (fun _ => n)
        (do return (← Code.mtbddMaketerminal D isPrime value type, false)) :=
      .bind (mtbddMaketerminal_disciplined value type) fun _ => .pure _
    have hold : ∀ r : ℕ × Bool, Disciplined D isPrime R c n (fun _ => n) (do
        Code.update fun s => { s with terminals := s.terminals.releaseTemp value }
        return r) := fun r => .bind (.update fun _ => .of_nodes rfl rfl rfl rfl) fun _ => .pure r
    have hmissing : Disciplined D isPrime R c n (fun _ => n) (do
        Code.error .op
        Code.update fun s => { s with terminals := s.terminals.releaseTemp value }
        return ((0 : ℕ), false)) := .bind (.error .op) fun _ => hold _
    dsimp only
    split_ifs
    · exact hnew
    · cases D.comparefun type with
      | none => exact hmissing
      | some cmp =>
        dsimp only
        split_ifs
        · exact hold _
        · cases right with
          | none => exact hnew
          | some r =>
            dsimp only
            split_ifs
            · exact hold _
            · exact hnew
    · exact hmissing

/-! ## The apply functions -/

theorem binaryRec_disciplined {key : ℕ → ℕ → CacheKey} {guard : ℕ → ℕ → Code P (Option ℕ)}
    {leaf : ℕ → ℕ → Code P (ℕ × Bool)}
    (hguard : ∀ n l r, Disciplined D isPrime R c n (fun _ => n) (guard l r))
    (hleaf : ∀ n l r, Disciplined D isPrime R c n (fun _ => n) (leaf l r)) (fuel n l r : ℕ) :
    Disciplined D isPrime R c n (fun _ => n)
      (Code.binaryRec D isPrime key guard leaf fuel l r) := by
  induction fuel generalizing n l r with
  | zero => exact .stuck
  | succ fuel ih =>
    unfold Code.binaryRec
    apply Disciplined.bind (hguard n l r)
    intro o
    cases o with
    | some res => exact .pure res
    | none =>
      apply Disciplined.memoUnless
      apply Disciplined.bind (.look _)
      intro leaves
      split_ifs
      · exact hleaf n l r
      · exact .bind (.splitTwo ih l r) fun res => .pure _

theorem unaryRec_disciplined {key : ℕ → CacheKey} {visit : ℕ → Code P (Option (ℕ × Bool))}
    (hvisit : ∀ n l, Disciplined D isPrime R c n (fun _ => n) (visit l)) (fuel n l : ℕ) :
    Disciplined D isPrime R c n (fun _ => n) (Code.unaryRec D isPrime key visit fuel l) := by
  induction fuel generalizing n l with
  | zero => exact .stuck
  | succ fuel ih =>
    unfold Code.unaryRec
    apply Disciplined.memoUnless
    apply Disciplined.bind (hvisit n l)
    intro o
    cases o with
    | some res => exact .pure res
    | none =>
      refine .bind (.branch ?_ ?_ fun n => .nodeAt l) fun res => .pure _
      · intro n
        exact .bind (.lowOf l) fun a => ih n a
      · intro n
        exact .bind (.highOf l) fun a => ih n a

theorem applyLeaf_disciplined (op : Option P → Option P → Option P) (n l r : ℕ) :
    Disciplined D isPrime R c n (fun _ => n) (Code.applyLeaf D isPrime op l r) :=
  .bind (.look _) fun _ => mtbddLeafResult_disciplined _ _ _ _ _

theorem unaryLeaf_disciplined (op : Option P → Option P) (n l : ℕ) :
    Disciplined D isPrime R c n (fun _ => n) (Code.unaryLeaf D isPrime op l) := by
  unfold Code.unaryLeaf
  apply Disciplined.bind (.look _)
  intro s
  split_ifs
  · exact .bind (mtbddLeafResult_disciplined _ _ _ _ _) fun _ => .pure _
  · exact .pure none

theorem withOp_disciplined {F : Type*} {op : Option F} {body : F → Code P ℕ}
    (h : ∀ f, op = some f → Disciplined D isPrime R c n (fun _ => n) (body f)) :
    Disciplined D isPrime R c n (fun _ => n) (Code.withOp op body) := by
  unfold Code.withOp
  cases op with
  | none => exact .bind (.error .op) fun _ => .pure 0
  | some f => exact h f rfl

theorem mtbddApply_disciplined (l r : ℕ)
    (op : Option (Callback (Option P → Option P → Option P))) :
    Disciplined D isPrime R c n (fun _ => n) (Code.mtbddApply D isPrime l r op) :=
  .checka <| .checka <| withOp_disciplined fun _ _ =>
    binaryRec_disciplined (fun _ _ _ => .pure none) (applyLeaf_disciplined _) depth n l r

theorem mtbddApplyParam_disciplined (l r : ℕ)
    (op : Option (Callback (Option P → Option P → UInt64 → Option P))) (param : UInt64) :
    Disciplined D isPrime R c n (fun _ => n) (Code.mtbddApplyParam D isPrime l r op param) :=
  .checka <| .checka <| withOp_disciplined fun _ _ =>
    binaryRec_disciplined (fun _ _ _ => .pure none) (applyLeaf_disciplined _) depth n l r

/-- The guards of a binary function whose callback is disciplined. -/
theorem guarded_disciplined {op : Guard P}
    (h : ∀ n l r, Disciplined D isPrime R c n (fun _ => n) (op l r)) (key : ℕ → ℕ → CacheKey)
    (fuel n l r : ℕ) : Disciplined D isPrime R c n (fun _ => n)
      (Code.binaryRec D isPrime key (Code.guardOf op) (Code.guardedLeaf op) fuel l r) := by
  apply binaryRec_disciplined
  · intro n l r
    exact .bind (h n l r) fun _ => .pure _
  · intro n l r
    exact .bind (h n l r) fun _ => .pure _

theorem mtbddApplyGuarded_disciplined (l r : ℕ) (op : Option (UInt32 × Guard P))
    (h : ∀ f, op = some f → ∀ n l r, Disciplined D isPrime R c n (fun _ => n) (f.2 l r)) :
    Disciplined D isPrime R c n (fun _ => n) (Code.mtbddApplyGuarded D isPrime l r op) :=
  .checka <| .checka <| withOp_disciplined fun f hf => guarded_disciplined (h f hf) _ depth n l r

theorem mtbddApplyGuardedParam_disciplined (l r : ℕ) (op : Option (UInt32 × (UInt64 → Guard P)))
    (param : UInt64)
    (h : ∀ f, op = some f → ∀ n l r, Disciplined D isPrime R c n (fun _ => n) (f.2 param l r)) :
    Disciplined D isPrime R c n (fun _ => n)
      (Code.mtbddApplyGuardedParam D isPrime l r op param) :=
  .checka <| .checka <| withOp_disciplined fun f hf => guarded_disciplined (h f hf) _ depth n l r

theorem mtbddApplyUnary_disciplined (l : ℕ) (op : Option (Callback (Option P → Option P))) :
    Disciplined D isPrime R c n (fun _ => n) (Code.mtbddApplyUnary D isPrime l op) :=
  .checka <| withOp_disciplined fun _ _ =>
    unaryRec_disciplined (unaryLeaf_disciplined _) depth n l

theorem mtbddApplyUnaryParam_disciplined (l : ℕ)
    (op : Option (Callback (Option P → UInt64 → Option P))) (param : UInt64) :
    Disciplined D isPrime R c n (fun _ => n) (Code.mtbddApplyUnaryParam D isPrime l op param) :=
  .checka <| withOp_disciplined fun _ _ =>
    unaryRec_disciplined (unaryLeaf_disciplined _) depth n l

theorem mtbddApplyUnaryGuarded_disciplined (l : ℕ)
    (op : Option (UInt32 × (UInt64 → ℕ → Code P (Bool × ℕ)))) (arg : UInt64)
    (h : ∀ f, op = some f → ∀ n l, Disciplined D isPrime R c n (fun _ => n) (f.2 arg l)) :
    Disciplined D isPrime R c n (fun _ => n) (Code.mtbddApplyUnaryGuarded D isPrime l op arg) := by
  refine .checka (withOp_disciplined fun f hf => unaryRec_disciplined ?_ depth n l)
  intro n l
  unfold Code.guardedUnary
  apply Disciplined.bind (h f hf n l)
  intro r
  dsimp only
  split_ifs
  · exact .pure _
  · apply Disciplined.bind (.look _)
    intro leaf
    split_ifs
    · exact .pure _
    · exact .pure none

theorem mtbddIte_disciplined (f g h : ℕ) :
    Disciplined D isPrime R c n (fun _ => n) (Code.mtbddIte D isPrime f g h) := by
  refine .checka (.checka (.checka ?_))
  generalize depth = fuel
  induction fuel generalizing n f g h with
  | zero => exact .stuck
  | succ fuel ih =>
    unfold Code.mtbddIteRec
    split_ifs
    · exact .pure h
    · exact .pure g
    · exact .pure g
    · apply Disciplined.bind (.look _)
      intro leaves
      split_ifs
      · exact .nodeAt f g h
      · exact .memo (.splitThree (fun n f g h => ih f g h) f g h)

end MoToBuddy.Bdd
