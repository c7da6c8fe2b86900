import MoToBuddy.Lib.DTree

/-!
# Renaming in decision trees

A function may be given other variables by renaming the assignment that it is evaluated at
(`BoolFun.along`). For a tree this works decision by decision as long as no decision is put on top
of branches that depend on its new level.

* `BoolFun.DependsOn`: the function takes a variable into account.
* `DTree.Mentions`: a decision of the tree is at a level; a reduced tree mentions the levels that
  its function depends on (`DTree.mentions_iff`).
* `DTree.Collides`: a renaming puts a decision on top of branches that depend on its new level,
  which an injective one does not (`DTree.not_collides`).
-/

namespace Decision

/-! ## Functions -/

namespace BoolFun

variable {L : Type*} {f : (ℕ → Bool) → L} {m : ℕ}

/-- The value of the function depends on that of the variable. -/
def DependsOn (f : (ℕ → Bool) → L) (l : ℕ) : Prop := ∃ x b, f (Function.update x l b) ≠ f x

/-- The assignment of the old names that an assignment of the new ones is. -/
def along (ρ : ℕ → Option ℕ) (x : ℕ → Bool) (l : ℕ) : Bool := (ρ l).elim false x

theorem along_some {ρ : ℕ → Option ℕ} {l : ℕ} (h : ρ l = some m) (x : ℕ → Bool) :
    along ρ x l = x m := by
  unfold along
  rw [h]
  rfl

/-- A variable that no old name is renamed to does not matter. -/
theorem along_update {ρ : ℕ → Option ℕ} {l : ℕ} (h : ρ l ≠ some m) (x : ℕ → Bool) (b : Bool) :
    along ρ (Function.update x m b) l = along ρ x l := by
  unfold along
  cases hl : ρ l with
  | none => rfl
  | some m' =>
    have hne : m' ≠ m := fun he => h (by rw [hl, he])
    exact Function.update_of_ne hne _ _

end BoolFun

open BoolFun

namespace DTree

variable {L : Type*} {M k l m : ℕ} {t low high : DTree L} {ρ : ℕ → Option ℕ}

/-! ## Levels -/

/-- A decision of the tree is at the level. -/
def Mentions (l : ℕ) : DTree L → Prop
  | leaf _ => False
  | node level low high => l = level ∨ low.Mentions l ∨ high.Mentions l

theorem mentions_bound (hs : t.Sorted M) (ha : t.Above k) (h : t.Mentions l) : k ≤ l ∧ l < M := by
  induction t generalizing k with
  | leaf _ => exact h.elim
  | node level low high ihl ihh =>
    obtain ⟨hlt, hal, hah, hsl, hsh⟩ := hs
    have hle : k ≤ level := ha
    rcases h with rfl | h | h
    · exact ⟨hle, hlt⟩
    · have := ihl hsl hal h
      omega
    · have := ihh hsh hah h
      omega

/-- Only the levels of its decisions matter to a tree. -/
theorem eval_eq_of_mentions {x y : ℕ → Bool} (h : ∀ l, t.Mentions l → x l = y l) :
    t.eval x = t.eval y := by
  induction t with
  | leaf _ => rfl
  | node level low high ihl ihh =>
    rw [eval_node, eval_node, h level (Or.inl rfl), ihl fun l hl => h l (Or.inr (Or.inl hl)),
      ihh fun l hl => h l (Or.inr (Or.inr hl))]

/-- A branch that depends on a level makes the tree depend on it. -/
theorem dependsOn_of_branch (hs : (node k low high).Sorted M) (b : Bool)
    (h : DependsOn (if b then high else low).eval l) (hl : k < l) :
    DependsOn (node k low high).eval l := by
  obtain ⟨x, c, hne⟩ := h
  obtain ⟨-, hal, hah, hsl, hsh⟩ := hs
  have hside : ∀ y, (node k low high).eval (Function.update y k b) =
      (if b then high else low).eval y := by
    intro y
    rw [eval_node, Function.update_self]
    cases b
    · exact eval_update hsl hal y false
    · exact eval_update hsh hah y true
  refine ⟨Function.update x k b, c, ?_⟩
  rw [Function.update_comm (by omega), hside, hside]
  exact hne

/-- A reduced tree mentions the levels that it depends on. -/
theorem mentions_iff (hs : t.Sorted M) (hr : t.Reduced) : t.Mentions l ↔ DependsOn t.eval l := by
  constructor
  · intro h
    induction t with
    | leaf _ => exact h.elim
    | node level low high ihl ihh =>
      obtain ⟨hlt, hal, hah, hsl, hsh⟩ := hs
      rcases h with rfl | h | h
      · -- the branches of a reduced decision are different functions
        by_contra hno
        refine hr.1 (ext hsl hr.2.1 hsh hr.2.2 fun x => ?_)
        have hsame : ∀ b, (node l low high).eval (Function.update x l b) =
            (node l low high).eval x := fun b => by
          by_contra hne
          exact hno ⟨x, b, hne⟩
        rw [← eval_node_false ⟨hlt, hal, hah, hsl, hsh⟩ x,
          ← eval_node_true ⟨hlt, hal, hah, hsl, hsh⟩ x, hsame, hsame]
      · exact dependsOn_of_branch ⟨hlt, hal, hah, hsl, hsh⟩ false (ihl hsl hr.2.1 h)
          (mentions_bound hsl hal h).1
      · exact dependsOn_of_branch ⟨hlt, hal, hah, hsl, hsh⟩ true (ihh hsh hr.2.2 h)
          (mentions_bound hsh hah h).1
  · rintro ⟨x, b, hne⟩
    by_contra hno
    refine hne (eval_eq_of_mentions fun j hj => ?_)
    have hjl : j ≠ l := fun he => hno (he ▸ hj)
    exact Function.update_of_ne hjl _ _

theorem mentions_of_cof {b : Bool} (h : (t.cof k b).Mentions l) : t.Mentions l := by
  cases t with
  | leaf _ => exact h
  | node level low high =>
    rw [cof_def] at h
    split at h
    · cases b
      · exact Or.inr (Or.inl h)
      · exact Or.inr (Or.inr h)
    · exact h

/-! ## Renaming -/

/-- The level of the root. -/
def root : DTree L → Option ℕ
  | leaf _ => none
  | node level _ _ => some level

/-- Somewhere a renaming puts a decision on top of a branch that depends on its new level. A level
without a new one collides, too. -/
def Collides (ρ : ℕ → Option ℕ) : DTree L → Prop
  | leaf _ => False
  | node level low high => low.Collides ρ ∨ high.Collides ρ ∨ ∀ m, ρ level = some m →
    DependsOn (fun x => low.eval (along ρ x)) m ∨ DependsOn (fun x => high.eval (along ρ x)) m

theorem not_collides_node (h : ¬ (node k low high).Collides ρ) :
    ¬ low.Collides ρ ∧ ¬ high.Collides ρ ∧ ∃ m, ρ k = some m ∧
      ¬ DependsOn (fun x => low.eval (along ρ x)) m ∧
      ¬ DependsOn (fun x => high.eval (along ρ x)) m := by
  simp only [Collides, not_or, not_forall] at h
  obtain ⟨hl, hh, m, hm, hno⟩ := h
  exact ⟨hl, hh, m, hm, hno⟩

/-- A renamed tree depends on new names only. -/
theorem exists_of_dependsOn (h : DependsOn (fun x => t.eval (along ρ x)) m) :
    ∃ l, t.Mentions l ∧ ρ l = some m := by
  obtain ⟨x, b, hne⟩ := h
  by_contra hno
  refine hne (eval_eq_of_mentions fun l hl => along_update (fun he => hno ⟨l, hl, he⟩) x b)

/-- A renaming of the levels of a tree that is injective does not collide. -/
theorem not_collides (hs : t.Sorted M) (hρ : ∀ l, t.Mentions l → (ρ l).isSome = true)
    (hinj : ∀ l l', t.Mentions l → t.Mentions l' → ρ l = ρ l' → l = l') : ¬ t.Collides ρ := by
  induction t with
  | leaf _ => exact id
  | node level low high ihl ihh =>
    obtain ⟨-, hal, hah, hsl, hsh⟩ := hs
    obtain ⟨m, hm⟩ := Option.isSome_iff_exists.mp (hρ level (Or.inl rfl))
    rintro (h | h | h)
    · exact ihl hsl (fun l hl => hρ l (Or.inr (Or.inl hl)))
        (fun l l' hl hl' => hinj l l' (Or.inr (Or.inl hl)) (Or.inr (Or.inl hl'))) h
    · exact ihh hsh (fun l hl => hρ l (Or.inr (Or.inr hl)))
        (fun l l' hl hl' => hinj l l' (Or.inr (Or.inr hl)) (Or.inr (Or.inr hl'))) h
    · rcases h m hm with hd | hd
      · obtain ⟨l, hl, hlm⟩ := exists_of_dependsOn hd
        have heq := hinj l level (Or.inr (Or.inl hl)) (Or.inl rfl) (hlm.trans hm.symm)
        have := (mentions_bound hsl hal hl).1
        omega
      · obtain ⟨l, hl, hlm⟩ := exists_of_dependsOn hd
        have heq := hinj l level (Or.inr (Or.inr hl)) (Or.inl rfl) (hlm.trans hm.symm)
        have := (mentions_bound hsh hah hl).1
        omega

end DTree

end Decision
