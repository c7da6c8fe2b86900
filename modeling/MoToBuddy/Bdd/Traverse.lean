import MoToBuddy.Bdd.Unfolds

/-!
# Traversals of trees (`mtbdd_with_traverse_to`)

`Traversed` says what `traverse` does to the tree of its operand: at a skipped level it works on a
node with equal branches, at the target it lets the action act, and above it descends into the
branches that it prefers. `mtbddWithTraverseTo_traversed` is the refinement: the operation returns a
node with such a tree as soon as its fuel is more than the number of levels up to the target.
-/

namespace MoToBuddy.Bdd

open Decision Jumping

open Code (Branch virtualLevel)

section Trees

variable {L : Type*} {target level M : ℕ} {pref : Branch} {parent : ℤ} {t low high : DTree L}

/-- The node that a traversal works on at a tree: the tree, or a node for a level that it skips. -/
inductive Filled (target : ℕ) (pref : Branch) (parent : ℤ) : DTree L → ℕ → DTree L → DTree L → Prop
  | real {level : ℕ} {low high : DTree L} (le : level ≤ target) :
      Filled target pref parent (.node level low high) level low high
  | virtual {t : DTree L} (above : t.Above (target + 1)) :
      Filled target pref parent t (virtualLevel target pref parent) t t

theorem virtualLevel_le (target : ℕ) (pref : Branch) (parent : ℤ) :
    virtualLevel target pref parent ≤ target := by
  unfold virtualLevel
  split <;> omega

namespace Filled

theorem le (h : Filled target pref parent t level low high) : level ≤ target := by
  cases h with
  | real le => exact le
  | virtual _ => exact virtualLevel_le target pref parent

/-- Both branches are below the target, or below the level of the node. -/
theorem above (h : Filled target pref parent t level low high) (hs : t.Sorted M) :
    low.Above (level + 1) ∧ high.Above (level + 1) := by
  cases h with
  | real _ => exact ⟨hs.2.1, hs.2.2.1⟩
  | virtual above =>
    have hle := virtualLevel_le target pref parent
    exact ⟨above.mono (by omega), above.mono (by omega)⟩

theorem sorted (h : Filled target pref parent t level low high) (hs : t.Sorted M) :
    low.Sorted M ∧ high.Sorted M := by
  cases h with
  | real _ => exact ⟨hs.2.2.2.1, hs.2.2.2.2⟩
  | virtual _ => exact ⟨hs, hs⟩

theorem node_sorted (h : Filled target pref parent t level low high) (hs : t.Sorted M)
    (htarget : target < M) : (DTree.node level low high).Sorted M :=
  ⟨Nat.lt_of_le_of_lt h.le htarget, (h.above hs).1, (h.above hs).2, (h.sorted hs).1,
    (h.sorted hs).2⟩

/-- The node has the function of the tree. -/
theorem eval (h : Filled target pref parent t level low high) (x : ℕ → Bool) :
    (DTree.node level low high).eval x = t.eval x := by
  cases h with
  | real _ => rfl
  | virtual _ => exact ite_self _

/-- A tree below a level that was reached is worked on further down. -/
theorem lt {k : ℕ} (h : Filled target pref k t level low high) (ht : t.Above (k + 1))
    (hk : k < target) : k < level := by
  cases h with
  | real _ => exact ht
  | virtual _ =>
    unfold virtualLevel
    split <;> omega

/-- The tree starts at the level of the node or below it. -/
theorem root_above (h : Filled target pref parent t level low high) : t.Above level := by
  cases h with
  | real _ => exact Nat.le_refl level
  | virtual above => exact above.mono (Nat.le_succ_of_le (virtualLevel_le target pref parent))

/-- A tree that is worked on at the target is what is left of it at the target. -/
theorem after_target (h : Filled target pref parent t target low high) (x : ℕ → Bool) :
    t.after target x = t := DTree.after_of_above h.root_above x

theorem after_lt (h : Filled target pref parent t level low high) (hlt : level < target)
    (x : ℕ → Bool) :
    t.after target x = if x level then high.after target x else low.after target x := by
  cases h with
  | real _ => exact if_pos hlt
  | virtual _ => exact (ite_self _).symm

end Filled

theorem exists_filled (target : ℕ) (pref : Branch) (parent : ℤ) (t : DTree L) :
    ∃ level low high, Filled target pref parent t level low high := by
  by_cases habove : t.Above (target + 1)
  · exact ⟨_, _, _, .virtual habove⟩
  · cases t with
    | leaf l => exact absurd trivial habove
    | node level low high => exact ⟨_, _, _, .real (Nat.lt_succ_iff.mp (Nat.not_le.mp habove))⟩

/-- What the action returns for the part of a node at the target that it gets, in its place. -/
def ActedOn (target : ℕ) (A : DTree L → DTree L → Prop) (actionOn : Branch)
    (low high r : DTree L) : Prop :=
  match actionOn with
  | .L => ∃ u, A low u ∧ r = .join target u high
  | .R => ∃ u, A high u ∧ r = .join target low u
  | _ => A (.node target low high) r

/-- What a traversal returns for a tree that was reached from the level `parent`. -/
inductive Traversed (target : ℕ) (A : DTree L → DTree L → Prop) (pref actionOn : Branch) :
    DTree L → ℤ → DTree L → Prop
  | act {t low high r : DTree L} {parent : ℤ} (filled : Filled target pref parent t target low high)
      (acted : ActedOn target A actionOn low high r) :
      Traversed target A pref actionOn t parent r
  | low {t low high u : DTree L} {parent : ℤ} {level : ℕ} (left : pref = .L)
      (filled : Filled target pref parent t level low high) (above : level ≠ target)
      (below : Traversed target A pref actionOn low level u) :
      Traversed target A pref actionOn t parent (.join level u high)
  | high {t low high u : DTree L} {parent : ℤ} {level : ℕ} (right : pref = .R)
      (filled : Filled target pref parent t level low high) (above : level ≠ target)
      (below : Traversed target A pref actionOn high level u) :
      Traversed target A pref actionOn t parent (.join level low u)
  | both {t low high u v : DTree L} {parent : ℤ} {level : ℕ} (left : pref ≠ .L) (right : pref ≠ .R)
      (filled : Filled target pref parent t level low high) (above : level ≠ target)
      (first : Traversed target A pref actionOn low level u)
      (second : Traversed target A pref actionOn high level v) :
      Traversed target A pref actionOn t parent (.join level u v)

end Trees

/-! ## The code -/

variable {P : Type} {D : MtbddDomain P} {isPrime : ℕ → Bool} {g g' : Globals P}
  {own : List ℕ} {n a b level target M : ℕ} {t ta tb tl th : DTree (ℕ × Leaf P)} {E : Prop}

/-- The contract of an action: it returns, from any state in which the library is called, what `A`
allows for a diagram from the target level on. -/
def Performs (D : MtbddDomain P) (isPrime : ℕ → Bool) (M target : ℕ)
    (A : DTree (ℕ × Leaf P) → DTree (ℕ × Leaf P) → Prop) (action : ℕ → Code P ℕ) : Prop :=
  ∀ g n t, Settled D isPrime g → Rooted D g n t → t.Sorted M → t.Above target →
    Yields (action n) g (Gives D isPrime g (A t)) False

theorem Gives.mono {C C' : DTree (ℕ × Leaf P) → Prop} {r : ℕ} (h : Gives D isPrime g C r g')
    (hC : ∀ t, C t → C' t) : Gives D isPrime g C' r g' :=
  ⟨h.1, h.2.imp fun t ht => ⟨hC t ht.1, ht.2⟩⟩

/-- The node of the two topmost entries. -/
theorem nodeOfTop_yields (h : Within D isPrime (b :: a :: own) g g')
    (hn : g'.kernel.level n = level) (hlevel : level < maxlevel) (ha : Rooted D g' a ta)
    (hb : Rooted D g' b tb) (lowFirst : Bool) :
    Yields (Code.nodeOfTop D isPrime n lowFirst) g' (fun r g'' => Within D isPrime own g g'' ∧
      g''.kernel.Unfolds D r (if lowFirst then .join level ta tb else .join level tb ta)) E := by
  unfold Code.nodeOfTop Code.levelOf
  apply h.readref_yields rfl
  apply h.readref_yields rfl
  apply look_yields
  rw [hn]
  have hpop : ∀ (r : ℕ) (C : DTree (ℕ × Leaf P)) (g₁ : Globals P),
      Gives D isPrime g' (· = C) r g₁ →
      Yields (do Code.popref 2; pure r) g₁ (fun r g'' => Within D isPrime own g g'' ∧
        g''.kernel.Unfolds D r C) E := by
    intro r C g₁ h₁
    obtain ⟨hw, u, rfl, hu⟩ := h₁
    apply (h.call hw).popref_yields 2 (by simp)
    intro g₂ hw₂ hsame
    exact pure_yields ⟨hw₂, hsame r _ hu⟩
  cases lowFirst with
  | true =>
    apply (makenode_yields h.settled hlevel ha hb).bind
    intro r g₁ _ h₁
    exact hpop r _ g₁ h₁
  | false =>
    apply (makenode_yields h.settled hlevel hb ha).bind
    intro r g₁ _ h₁
    exact hpop r _ g₁ h₁

section Descend

variable {C C' : DTree (ℕ × Leaf P) → Prop}

/-- The node of the topmost entry and of what a call returns. -/
theorem topNode_yields (h : Within D isPrime (a :: own) g g') (ha : Rooted D g' a ta)
    (hn : Rooted D g n (.node level tl th)) (hlevel : level < maxlevel) {call : Code P ℕ}
    (hcall : Yields call g' (Gives D isPrime g' C) E) (lowFirst : Bool) :
    Yields (do Code.pushref (← call); Code.nodeOfTop D isPrime n lowFirst) g' (fun r g'' =>
      Within D isPrime own g g'' ∧ ∃ u, C u ∧
        g''.kernel.Unfolds D r (if lowFirst then .join level ta u else .join level u ta)) E := by
  apply hcall.bind
  intro r g₁ _ h₁
  obtain ⟨hw₁, u, hu, hr₁⟩ := h₁
  apply (h.call hw₁).pushref_yields hr₁
  intro g₂ hw₂ he₂ hr₂
  have hn₂ := (hn.evo hw₂.evo).children.2.1
  apply (nodeOfTop_yields hw₂ hn₂ hlevel (ha.evo (hw₁.evo.trans he₂)) hr₂ lowFirst).mono _ id
  intro r g₃ _ h₃
  exact ⟨h₃.1, u, hu, h₃.2⟩

/-- One child is kept, while the call works on the other one. -/
theorem replaceLow_yields (hs : Settled D isPrime g) (hn : Rooted D g n (.node level tl th))
    (hlevel : level < maxlevel) {call : Code P ℕ}
    (hcall : ∀ g', Within D isPrime [g.kernel.high n] g g' →
      Yields call g' (Gives D isPrime g' C) E) :
    Yields (Code.replaceLow D isPrime n call) g
      (Gives D isPrime g fun r => ∃ u, C u ∧ r = .join level u th) E := by
  unfold Code.replaceLow Code.highOf
  apply look_yields
  apply (Within.refl hs).pushref_yields hn.children.2.2.2.unfolds
  intro g₁ hw₁ _ hr₁
  apply (topNode_yields hw₁ hr₁ hn hlevel (hcall g₁ hw₁) false).mono _ id
  intro r g₂ _ h₂
  obtain ⟨hw₂, u, hu, hr₂⟩ := h₂
  exact ⟨hw₂, _, ⟨u, hu, rfl⟩, hr₂⟩

theorem replaceHigh_yields (hs : Settled D isPrime g) (hn : Rooted D g n (.node level tl th))
    (hlevel : level < maxlevel) {call : Code P ℕ}
    (hcall : ∀ g', Within D isPrime [g.kernel.low n] g g' →
      Yields call g' (Gives D isPrime g' C) E) :
    Yields (Code.replaceHigh D isPrime n call) g
      (Gives D isPrime g fun r => ∃ u, C u ∧ r = .join level tl u) E := by
  unfold Code.replaceHigh Code.lowOf
  apply look_yields
  apply (Within.refl hs).pushref_yields hn.children.2.2.1.unfolds
  intro g₁ hw₁ _ hr₁
  apply (topNode_yields hw₁ hr₁ hn hlevel (hcall g₁ hw₁) true).mono _ id
  intro r g₂ _ h₂
  obtain ⟨hw₂, u, hu, hr₂⟩ := h₂
  exact ⟨hw₂, _, ⟨u, hu, rfl⟩, hr₂⟩

/-- Both children are replaced, the one of the first call first. -/
theorem replaceBoth_yields (hn : Rooted D g n (.node level tl th))
    (hlevel : level < maxlevel) {first second : Code P ℕ} (lowFirst : Bool)
    (hfirst : Yields first g (Gives D isPrime g C) E)
    (hsecond : ∀ own g', Within D isPrime own g g' →
      Yields second g' (Gives D isPrime g' C') E) :
    Yields (do
      Code.pushref (← first)
      Code.pushref (← second)
      Code.nodeOfTop D isPrime n lowFirst) g
      (Gives D isPrime g fun r => ∃ u v, C u ∧ C' v ∧
        r = if lowFirst then .join level u v else .join level v u) E := by
  apply hfirst.bind
  intro r₁ g₁ _ h₁
  obtain ⟨hw₁, u, hu, hr₁⟩ := h₁
  apply hw₁.pushref_yields hr₁
  intro g₂ hw₂ _ hr₂
  apply (topNode_yields hw₂ hr₂ hn hlevel (hsecond _ g₂ hw₂) lowFirst).mono _ id
  intro r g₃ _ h₃
  obtain ⟨hw₃, v, hv, hr₃⟩ := h₃
  exact ⟨hw₃, _, ⟨u, v, hu, hv, rfl⟩, hr₃⟩

end Descend

section Traverse

variable {A : DTree (ℕ × Leaf P) → DTree (ℕ × Leaf P) → Prop} {action : ℕ → Code P ℕ}
  {pref actionOn : Branch} {parent : ℤ} {self : ℕ → ℤ → Code P ℕ}

/-- At the target, on the node that is worked on. -/
theorem act_yields (haction : Performs D isPrime M target A action) (hs : Settled D isPrime g)
    (hn : Rooted D g n (.node target tl th)) (hsorted : (DTree.node target tl th).Sorted M)
    (hlevel : target < maxlevel) :
    Yields (match actionOn with
      | .L => Code.replaceLow D isPrime n (do action (← Code.lowOf n))
      | .R => Code.replaceHigh D isPrime n (do action (← Code.highOf n))
      | _ => action n) g (Gives D isPrime g (ActedOn target A actionOn tl th)) E := by
  have hitself : Yields (action n) g (Gives D isPrime g (A (.node target tl th))) E :=
    (haction g n _ hs hn hsorted (Nat.le_refl target)).mono (fun _ _ _ h => h) False.elim
  obtain ⟨-, hal, hah, hsl, hsh⟩ := hsorted
  cases actionOn with
  | L =>
    apply replaceLow_yields hs hn hlevel
    intro g' hw
    apply look_yields
    have hlow := (hn.evo hw.evo).children.2.2.1
    exact (haction g' _ _ hw.settled hlow hsl (hal.mono (Nat.le_succ _))).mono (fun _ _ _ h => h)
      False.elim
  | R =>
    apply replaceHigh_yields hs hn hlevel
    intro g' hw
    apply look_yields
    have hhigh := (hn.evo hw.evo).children.2.2.2
    exact (haction g' _ _ hw.settled hhigh hsh (hah.mono (Nat.le_succ _))).mono (fun _ _ _ h => h)
      False.elim
  | LR | RL | ITSELF => exact hitself

/-- A step of the traversal at the node that is worked on. -/
theorem visit_yields (haction : Performs D isPrime M target A action) (hs : Settled D isPrime g)
    (hn : Rooted D g n (.node level tl th)) (hsorted : (DTree.node level tl th).Sorted M)
    (hlevel : target < maxlevel) (hfilled : Filled target pref parent t level tl th)
    (hself : level ≠ target → ∀ g' m u, u = tl ∨ u = th → Settled D isPrime g' → Rooted D g' m u →
      Yields (self m level) g' (Gives D isPrime g' (Traversed target A pref actionOn u level)) E) :
    Yields (Code.visit D isPrime target action pref actionOn self n) g
      (Gives D isPrime g (Traversed target A pref actionOn t parent)) E := by
  have hle : level < maxlevel := Nat.lt_of_le_of_lt hfilled.le hlevel
  unfold Code.visit Code.levelOf
  apply look_yields
  rw [hn.children.2.1]
  split
  · rename_i heq
    subst heq
    apply (act_yields haction hs hn hsorted hlevel).mono _ id
    intro r g' _ h
    exact h.mono fun u hu => .act hfilled hu
  rename_i hne
  have hcalls : ∀ own g', Within D isPrime own g g' →
      Yields (do self (← Code.lowOf n) (← Code.look (·.kernel.level n))) g'
        (Gives D isPrime g' (Traversed target A pref actionOn tl level)) E ∧
      Yields (do self (← Code.highOf n) (← Code.look (·.kernel.level n))) g'
        (Gives D isPrime g' (Traversed target A pref actionOn th level)) E := by
    intro own g' hw
    obtain ⟨-, hlv, hlow, hhigh⟩ := (hn.evo hw.evo).children
    constructor
    · apply look_yields
      apply look_yields
      rw [hlv]
      exact hself hne g' _ _ (.inl rfl) hw.settled hlow
    · apply look_yields
      apply look_yields
      rw [hlv]
      exact hself hne g' _ _ (.inr rfl) hw.settled hhigh
  have hfirst := hcalls [] g (.refl hs)
  cases pref with
  | R =>
    apply (replaceHigh_yields hs hn hle fun g' hw => (hcalls _ g' hw).2).mono _ id
    rintro r g' - h
    exact h.mono fun _ ⟨u, hu, hr⟩ => hr ▸ .high rfl hfilled hne hu
  | L =>
    apply (replaceLow_yields hs hn hle fun g' hw => (hcalls _ g' hw).1).mono _ id
    rintro r g' - h
    exact h.mono fun _ ⟨u, hu, hr⟩ => hr ▸ .low rfl hfilled hne hu
  | RL =>
    apply (replaceBoth_yields hn hle false hfirst.2 fun _ g' hw => (hcalls _ g' hw).1).mono _ id
    rintro r g' - h
    exact h.mono fun _ ⟨u, v, hu, hv, hr⟩ => hr ▸ .both nofun nofun hfilled hne hv hu
  | LR | ITSELF =>
    apply (replaceBoth_yields hn hle true hfirst.1 fun _ g' hw => (hcalls _ g' hw).2).mono _ id
    rintro r g' - h
    exact h.mono fun _ ⟨u, v, hu, hv, hr⟩ => hr ▸ .both nofun nofun hfilled hne hu hv

/-- Whether a node is below the target. -/
theorem below_yields {α : Type} {Q : α → Globals P → Prop} (hn : Rooted D g n t)
    (hlevel : target < maxlevel) {f : Bool → Code P α}
    (hf : Yields (f (decide (t.Above (target + 1)))) g Q E) :
    Yields (Code.below target n >>= f) g Q E := by
  apply look_yields
  have hbelow := hn.unfolds.lt_level_iff hlevel
  rw [show (decide (g.kernel.level n > target) || decide (n < 2)) =
    decide (t.Above (target + 1)) by simp [← hbelow]]
  exact hf

/-- A node with two equal children is not the child. -/
theorem Within.ne_virtual {m : ℕ} (h : Within D isPrime own g g') (hn : Rooted D g n t)
    (hm : g'.kernel.Unfolds D m (.node level t t)) : n ≠ m := by
  rintro rfl
  have heq := (hn.evo h.evo).unfolds.unique hm
  have hsize := congrArg sizeOf heq
  simp at hsize

theorem traverse_yields (haction : Performs D isPrime M target A action)
    (hlevel : target < maxlevel) (htarget : target < M) (fuel : ℕ) (hs : Settled D isPrime g)
    (hn : Rooted D g n t) (hsorted : t.Sorted M) (hfuel : E ∨ ∀ level low high,
      Filled target pref parent t level low high → target < level + fuel) :
    Yields (Code.traverse D isPrime target action pref actionOn fuel n parent) g
      (Gives D isPrime g (Traversed target A pref actionOn t parent)) E := by
  induction fuel generalizing g n t parent with
  | zero =>
    apply Prog.Yields.stuck
    apply hfuel.resolve_right
    intro h
    obtain ⟨level, low, high, hfilled⟩ := exists_filled target pref parent t
    have hlt := h level low high hfilled
    have hle := hfilled.le
    omega
  | succ fuel ih =>
    -- the node that is worked on
    have hvisit : ∀ g' m level low high, Filled target pref parent t level low high →
        Settled D isPrime g' → Rooted D g' m (.node level low high) →
        Yields (Code.visit D isPrime target action pref actionOn
          (Code.traverse D isPrime target action pref actionOn fuel) m) g'
          (Gives D isPrime g' (Traversed target A pref actionOn t parent)) E := by
      intro g' m level low high hfilled hs' hm
      apply visit_yields haction hs' hm (hfilled.node_sorted hsorted htarget) hlevel hfilled
      intro hne g'' m' u hu hs'' hm'
      have hlt : level < target := Nat.lt_of_le_of_ne hfilled.le hne
      have hu' : u.Above (level + 1) ∧ u.Sorted M := by
        rcases hu with rfl | rfl
        · exact ⟨(hfilled.above hsorted).1, (hfilled.sorted hsorted).1⟩
        · exact ⟨(hfilled.above hsorted).2, (hfilled.sorted hsorted).2⟩
      apply ih hs'' hm' hu'.2
      refine hfuel.imp_right fun h level' low' high' hfilled' => ?_
      have hdeep := h level low high hfilled
      have hlt' := hfilled'.lt hu'.1 (by omega)
      omega
    unfold Code.traverse
    apply below_yields hn hlevel
    by_cases habove : t.Above (target + 1)
    · rw [decide_eq_true habove]
      apply (virtualNode_yields hs (Nat.lt_of_le_of_lt (virtualLevel_le target pref parent) hlevel)
        hn).bind
      intro w g₁ _ h₁
      obtain ⟨hw₁, _, rfl, hu₁⟩ := h₁
      apply hw₁.pushref_yields hu₁
      intro g₂ hw₂ _ hr₂
      apply (hvisit g₂ w _ t t (.virtual habove) hw₂.settled hr₂).bind
      intro r g₃ _ h₃
      obtain ⟨hw₃, u, hu, hr₃⟩ := h₃
      apply (hw₂.call hw₃).pushref_yields hr₃
      intro g₄ hw₄ _ hr₄
      rw [if_pos (hw₁.ne_virtual hn hu₁)]
      apply hw₄.readref_yields rfl
      apply hw₄.popref_yields 2 (by simp)
      intro g₅ hw₅ hsame₅
      apply hw₅.pushref_yields (hsame₅ r u hr₄.unfolds)
      intro g₆ hw₆ _ hr₆
      apply hw₆.popref_yields 1 (by simp)
      intro g₇ hw₇ hsame₇
      exact pure_yields ⟨hw₇, u, hu, hsame₇ r u hr₆.unfolds⟩
    · rw [decide_eq_false habove]
      cases t with
      | leaf l => exact absurd trivial habove
      | node level low high =>
        have hle : level ≤ target := Nat.lt_succ_iff.mp (Nat.not_le.mp habove)
        apply (hvisit g n level low high (.real hle) hs hn).bind
        intro r g₁ _ h₁
        obtain ⟨hw₁, u, hu, hr₁⟩ := h₁
        apply hw₁.pushref_yields hr₁
        intro g₂ hw₂ _ hr₂
        apply hw₂.popref_yields 1 (by simp)
        intro g₃ hw₃ hsame₃
        exact pure_yields ⟨hw₃, u, hu, hsame₃ r u hr₂.unfolds⟩

/-- The level above the root of a tree, for `varnum` variables. -/
def rootParent {L : Type*} (varnum : ℕ) : DTree L → ℤ
  | .leaf _ => varnum - 1
  | .node level _ _ => level - 1

theorem aboveRoot_eq (hn : Rooted D g n t) :
    ((if g.kernel.isTerminal n || n < 2 then g.kernel.env.bddvarnum else g.kernel.level n : ℕ) : ℤ)
      - 1 = rootParent g.kernel.env.bddvarnum t := by
  cases t with
  | leaf l =>
    rw [if_pos]
    · rfl
    obtain ⟨_, l⟩ := l
    have hr : g.kernel.Reads D n (.leaf l) := hn.unfolds.reads
    cases hr with
    | const b => simp [BddState.Reads.toNat_lt b]
    | terminal live level _ _ =>
      obtain ⟨-, low, hlow⟩ := BddState.live_iff.mp live
      have hterm : g.kernel.isTerminal n = true := by
        unfold BddState.isTerminal BddState.isFree
        rw [show g.kernel.level n = maxlevel from level,
          show (g.kernel.bddnodes n).low = some low from hlow]
        simp
      rw [hterm]
      rfl
  | node level low high =>
    obtain ⟨h2, hlv, -, -⟩ := hn.children
    obtain ⟨_, _, -, -, hne, -, -⟩ := hn.unfolds.children
    have hlt : ¬ n < 2 := by omega
    rw [if_neg]
    · rw [hlv]
      rfl
    · simp [BddState.isTerminal, hlv, hne, hlt]

theorem aboveRoot_yields {α : Type} {Q : α → Globals P → Prop} (hn : Rooted D g n t)
    {f : ℤ → Code P α} (hf : Yields (f (rootParent g.kernel.env.bddvarnum t)) g Q E) :
    Yields (Code.aboveRoot n >>= f) g Q E := by
  rw [← aboveRoot_eq hn] at hf
  exact Prog.Yields.step fun s g' hs => by
    obtain ⟨rfl, rfl⟩ := Outcome.done.inj hs
    exact hf

/-- The refinement: with enough fuel the operation returns, and what it returns is what the
traversal of the tree of its operand allows. -/
theorem mtbddWithTraverseTo_yields (hs : Settled D isPrime g) (hn : Diagram D g n t)
    (htarget : target < g.kernel.env.bddvarnum)
    (haction : Performs D isPrime g.kernel.env.bddvarnum target A action) {fuel : ℕ}
    (hfuel : target < fuel) :
    Yields (Code.mtbddWithTraverseTo D isPrime target action pref actionOn fuel n) g
      (Gives D isPrime g (Traversed target A pref actionOn t
        (rootParent g.kernel.env.bddvarnum t))) False := by
  unfold Code.mtbddWithTraverseTo
  apply aboveRoot_yields hn.toRooted
  apply traverse_yields haction (Nat.lt_of_lt_of_le htarget hs.varnum) htarget fuel hs hn.toRooted
    hn.sorted
  right
  intro level low high _
  omega

end Traverse

end MoToBuddy.Bdd
