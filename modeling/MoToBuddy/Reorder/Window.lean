import MoToBuddy.Reorder.InStep
import Mathlib.Data.List.Permutation

/-!
# Window permutation (`reorder.c`)

`reorder_win2` and `reorder_win3` move a window along the siblings, and leave what is in the window
in the best of its orders. `reorder_win2ite` and `reorder_win3ite` repeat that while the number of
nodes changes. The number of nodes is a function of the order.
-/

namespace MoToBuddy.Reorder

open Bdd (BddEnv)
open CountedLoop Interleaving

variable (nodenum : List ℕ → ℕ)

/-- A window starts at the block `this`. `first` is the block that is thought to be the first. -/
structure Window where
  this : ℕ
  first : ℕ
  s : Blocks

/-! ## Windows of two blocks -/

/-- The body of the loop of `reorder_win2`. -/
def win2Step (fuel : ℕ) (w : Window) : Option Window := do
  let best := reorderNodenum nodenum w.s
  let s ← blockdown fuel w.this w.s
  if best < reorderNodenum nodenum s then
    let prev ← (s.tree w.this).prev
    let s ← blockdown fuel prev s
    let this ← (s.tree w.this).next
    return ⟨this, w.first, s⟩
  else
    let first ← if w.first = w.this then (s.tree w.this).prev else some w.first
    return ⟨w.this, first, s⟩

/-- The loop of `reorder_win2`. -/
def win2Pass (fuel : ℕ) (w : Window) : Option Window :=
  whileDo (fun w => (w.s.tree w.this).next.isSome) (win2Step nodenum fuel) fuel w

/-- `reorder_win2`. -/
def reorderWin2 (fuel t : ℕ) (s : Blocks) : Option (ℕ × Blocks) := do
  let w ← win2Pass nodenum fuel ⟨t, t, s⟩
  return (w.first, w.s)

/-- `reorder_win2ite`, for at most `rounds` rounds. Each of them starts at `t`. -/
def reorderWin2ite (fuel t : ℕ) : ℕ → ℕ → Blocks → Option (ℕ × Blocks)
  | 0, _, _ => none
  | rounds + 1, first, s => do
    let lastsize := reorderNodenum nodenum s
    let w ← win2Pass nodenum fuel ⟨t, first, s⟩
    if reorderNodenum nodenum w.s ≠ lastsize then
      reorderWin2ite fuel t rounds w.first w.s
    else
      return (w.first, w.s)

/-! ## Windows of three blocks -/

/-- The variables of `reorder_swapwin3` while it goes through the orders of the window. -/
structure Trial where
  s : Blocks
  best : ℕ
  pos : ℕ

/-- The next order of the window. -/
def trial (fuel this : ℕ) (t : Trial) : Option Trial := do
  let s ← blockdown fuel this t.s
  if t.best > reorderNodenum nodenum s then
    return ⟨s, reorderNodenum nodenum s, 0⟩
  else
    return ⟨s, t.best, t.pos + 1⟩

/-- `this->prev->prev`. -/
def prevPrev (s : Blocks) (this : ℕ) : Option ℕ := (s.tree this).prev.bind fun p => (s.tree p).prev

/-- The variables of `reorder_swapwin3` while it goes back to the best order: `next` is returned. -/
structure Return where
  this : ℕ
  next : ℕ
  first : ℕ
  s : Blocks

/-- A step back that makes the block `this` the one in the middle. -/
def returnThis (fuel this : ℕ) (setfirst : Bool) (r : Return) : Option Return := do
  let s ← blockdown fuel this r.s
  let first ← if setfirst then (s.tree this).prev else some r.first
  return ⟨this, this, first, s⟩

/-- A step back that makes the block `this` the last one. -/
def returnPrev (fuel : ℕ) (setfirst : Bool) (r : Return) : Option Return := do
  let s ← blockdown fuel r.this r.s
  let next ← (s.tree r.this).prev
  let first ← if setfirst then prevPrev s r.this else some r.first
  return ⟨r.this, next, first, s⟩

/-- A step back, if the best order is `k` exchanges ago or more. -/
def stepBack (pos k : ℕ) (f : Return → Option Return) (r : Return) : Option Return :=
  if pos ≥ k then f r else some r

/-- The steps back to the best order. -/
def goBack (fuel : ℕ) (setfirst : Bool) (pos : ℕ) (r : Return) : Option Return := do
  let r ← stepBack pos 1
    (fun r => (r.s.tree r.this).prev.bind fun this => returnThis fuel this setfirst r) r
  let r ← stepBack pos 2 (returnPrev fuel setfirst) r
  let r ← stepBack pos 3
    (fun r => (prevPrev r.s r.this).bind fun this => returnThis fuel this setfirst r) r
  let r ← stepBack pos 4 (returnPrev fuel setfirst) r
  stepBack pos 5 (fun r => (prevPrev r.s r.this).bind fun this => returnThis fuel this setfirst r) r

/-- "Real win3 swap". -/
def realSwapwin3 (fuel : ℕ) (w : Window) : Option Window := do
  let setfirst := (w.s.tree w.this).prev.isNone
  let this := w.this
  let t ← trial nodenum fuel this ⟨w.s, reorderNodenum nodenum w.s, 0⟩
  let t ← trial nodenum fuel this t
  let this ← prevPrev t.s this
  let t ← trial nodenum fuel this t
  let t ← trial nodenum fuel this t
  let this ← prevPrev t.s this
  let t ← trial nodenum fuel this t
  let r ← goBack fuel setfirst t.pos ⟨this, w.this, w.first, t.s⟩
  return ⟨r.next, r.first, r.s⟩

/-- "Only two blocks left". -/
def twoSwapwin3 (fuel : ℕ) (w : Window) : Option Window := do
  let setfirst := (w.s.tree w.this).prev.isNone
  let best := reorderNodenum nodenum w.s
  let s ← blockdown fuel w.this w.s
  if best < reorderNodenum nodenum s then
    let prev ← (s.tree w.this).prev
    let s ← blockdown fuel prev s
    let next ← (s.tree w.this).next
    return ⟨next, w.first, s⟩
  else
    let first ← if setfirst then (s.tree w.this).prev else some w.first
    return ⟨w.this, first, s⟩

/-- `reorder_swapwin3`. -/
def reorderSwapwin3 (fuel : ℕ) (w : Window) : Option Window := do
  let next ← (w.s.tree w.this).next
  if (w.s.tree next).next.isNone then twoSwapwin3 nodenum fuel w
  else realSwapwin3 nodenum fuel w

/-- `reorder_win3`, with `rounds` steps of the window at most. -/
def reorderWin3 (fuel rounds t : ℕ) (s : Blocks) : Option (ℕ × Blocks) := do
  let w ← whileDo (fun w => (w.s.tree w.this).next.isSome) (reorderSwapwin3 nodenum fuel) rounds
    ⟨t, t, s⟩
  return (w.first, w.s)

/-- There are two blocks after the first one of the window. -/
def twoAfter (w : Window) : Bool :=
  ((w.s.tree w.this).next.bind fun next => (w.s.tree next).next).isSome

/-- `reorder_win3ite`, for at most `rounds` rounds of at most `steps` steps. -/
def reorderWin3ite (fuel steps : ℕ) : ℕ → ℕ → Blocks → Option (ℕ × Blocks)
  | 0, _, _ => none
  | rounds + 1, first, s => do
    let lastsize := reorderNodenum nodenum s
    let w ← whileDo twoAfter (reorderSwapwin3 nodenum fuel) steps ⟨first, first, s⟩
    if reorderNodenum nodenum w.s ≠ lastsize then
      reorderWin3ite fuel steps rounds w.first w.s
    else
      return (w.first, w.s)

/-! ## One window -/

section

variable {nodenum} {num fuel : ℕ} {X Y : List ℕ} {gs : List (List ℕ)} {vars : ℕ → List ℕ}
  {A B L R bs : List ℕ} {s : Blocks} {w : Window} {l r x y z : ℕ}

/-- The number of nodes that a list of blocks makes. -/
def size (nodenum : List ℕ → ℕ) (X Y : List ℕ) (gs : List (List ℕ)) (vars : ℕ → List ℕ)
    (bs : List ℕ) : ℕ := nodenum (X ++ lay (bs.map vars) gs ++ Y)

theorem Laid.size_eq (h : Laid num X Y gs vars bs s) :
    reorderNodenum nodenum s = size nodenum X Y gs vars bs := congrArg nodenum h.laid

theorem Laid.prev (h : Laid num X Y gs vars (A ++ x :: B) s) : (s.tree x).prev = A.getLast? := by
  have hx : (A ++ x :: B)[A.length]? = some x := by
    rw [List.getElem?_append_right (Nat.le_refl _), Nat.sub_self, List.getElem?_cons_zero]
  rw [(h.siblings.links hx).1, List.take_left]

theorem Laid.next (h : Laid num X Y gs vars (A ++ x :: B) s) : (s.tree x).next = B.head? := by
  have hx : (A ++ x :: B)[A.length]? = some x := by
    rw [List.getElem?_append_right (Nat.le_refl _), Nat.sub_self, List.getElem?_cons_zero]
  have hlen : A.length + 1 - A.length = 0 + 1 := by omega
  rw [(h.siblings.links hx).2, List.getElem?_append_right (Nat.le_succ _), hlen,
    List.getElem?_cons_succ, List.head?_eq_getElem?]

/-- The first block of a list only depends on the start of the list. -/
theorem head_append_cons (A : List ℕ) (x : ℕ) (B : List ℕ) :
    (A ++ x :: B).head? = (A ++ [x]).head? := by cases A <;> rfl

/-- The window is at its block in the list. -/
structure Window.On (num : ℕ) (X Y : List ℕ) (gs : List (List ℕ)) (vars : ℕ → List ℕ)
    (A B : List ℕ) (w : Window) : Prop where
  laid : Laid num X Y gs vars (A ++ w.this :: B) w.s
  first : (A ++ [w.this]).head? = some w.first

/-- The exchange of the first two blocks, and the way back if it made things worse. -/
theorem Laid.tryExchange (h : Laid num X Y gs vars (A ++ l :: r :: B) s)
    (hfuel : num * num < fuel) :
    ∃ s₁, blockdown fuel l s = some s₁ ∧ Laid num X Y gs vars (A ++ r :: l :: B) s₁ ∧
      (s₁.tree l).prev = some r ∧ ∃ s₂, blockdown fuel r s₁ = some s₂ ∧
        Laid num X Y gs vars (A ++ l :: r :: B) s₂ ∧ (s₂.tree l).next = some r := by
  obtain ⟨s₁, hrun₁, h₁⟩ := h.exchange hfuel
  obtain ⟨s₂, hrun₂, h₂⟩ := h₁.exchange hfuel
  have hprev : (s₁.tree l).prev = some r := by
    have hl : Laid num X Y gs vars ((A ++ [r]) ++ l :: B) s₁ := by simpa using h₁
    rw [hl.prev, List.getLast?_append]
    rfl
  exact ⟨s₁, hrun₁, h₁, hprev, s₂, hrun₂, h₂, h₂.next⟩

/-- The first two blocks of a list, after the exchange of which the first is where it should be. -/
theorem head_swap {a b c : ℕ} (h : (A ++ [a]).head? = some c) :
    (A ++ [b, a]).head? = some (if c = a ∧ A = [] then b else c) := by
  cases A with
  | nil =>
    obtain rfl : a = c := Option.some.inj h
    simp
  | cons d A =>
    obtain rfl : d = c := Option.some.inj h
    simp

theorem Window.On.win2Step (nodenum : List ℕ → ℕ) (h : w.On num X Y gs vars A (r :: B))
    (hfuel : num * num < fuel) :
    ∃ w' A', win2Step nodenum fuel w = some w' ∧ w'.On num X Y gs vars A' B ∧
      (A' ++ w'.this :: B).Perm (A ++ w.this :: r :: B) ∧
      reorderNodenum nodenum w'.s ≤ reorderNodenum nodenum w.s := by
  obtain ⟨s₁, hrun₁, h₁, hprev, s₂, hrun₂, h₂, hnext⟩ := h.laid.tryExchange hfuel
  unfold Reorder.win2Step
  simp only [hrun₁, Option.bind_eq_bind, Option.bind_some]
  by_cases hworse : reorderNodenum nodenum w.s < reorderNodenum nodenum s₁
  · refine ⟨⟨r, w.first, s₂⟩, A ++ [w.this], ?_, ⟨by simpa using h₂, ?_⟩, by simp, ?_⟩
    · rw [if_pos hworse, hprev, Option.bind_some, hrun₂, Option.bind_some, hnext]
      rfl
    · rw [List.append_assoc, List.singleton_append, head_append_cons, h.first]
    · show reorderNodenum nodenum s₂ ≤ _
      rw [h₂.size_eq, h.laid.size_eq]
  · -- the block is the first of the list if it is thought to be
    have hfirst := head_swap (b := r) h.first
    have hmem : w.first = w.this → A = [] := fun heq => by
      cases A with
      | nil => rfl
      | cons d A =>
        have hd : d = w.first := Option.some.inj h.first
        have hnodup := h.laid.nodup
        rw [List.cons_append, List.nodup_cons] at hnodup
        exact absurd (by rw [hd, heq]; simp) hnodup.1
    refine ⟨⟨w.this, if w.first = w.this ∧ A = [] then r else w.first, s₁⟩, A ++ [r], ?_,
      ⟨by simpa using h₁, ?_⟩, ?_, not_lt.mp hworse⟩
    · rw [if_neg hworse]
      by_cases heq : w.first = w.this
      · rw [if_pos heq, if_pos ⟨heq, hmem heq⟩, hprev]
        rfl
      · rw [if_neg heq, if_neg fun hand => heq hand.1]
        rfl
    · rw [List.append_assoc]
      exact hfirst
    · rw [List.append_assoc]
      exact (List.Perm.swap w.this r B).append_left A

/-- What a window permutation leaves of the blocks `bs`: the same blocks in some order, as many
nodes as before or fewer. -/
structure Permuted (nodenum : List ℕ → ℕ) (num : ℕ) (X Y : List ℕ) (gs : List (List ℕ))
    (vars : ℕ → List ℕ) (bs : List ℕ) (bound first : ℕ) (s : Blocks) (bs' : List ℕ) : Prop where
  laid : Laid num X Y gs vars bs' s
  perm : bs'.Perm bs
  first : bs'.head? = some first
  le : reorderNodenum nodenum s ≤ bound

/-- A pass of the window ends at the last block. -/
theorem Window.On.win2Pass (nodenum : List ℕ → ℕ) (h : w.On num X Y gs vars A B)
    (hfuel : num * num < fuel) (hlen : (A ++ w.this :: B).length < fuel) :
    ∃ w' bs', win2Pass nodenum fuel w = some w' ∧ w'.this ∈ bs' ∧
      Permuted nodenum num X Y gs vars (A ++ w.this :: B) (reorderNodenum nodenum w.s) w'.first w'.s
        bs' := by
  let I (k : ℕ) (u : Window) : Prop := ∃ A' B', B'.length = k ∧ u.On num X Y gs vars A' B' ∧
    (A' ++ u.this :: B').Perm (A ++ w.this :: B) ∧
    reorderNodenum nodenum u.s ≤ reorderNodenum nodenum w.s
  have hstep : ∀ k u, I k u → (u.s.tree u.this).next.isSome = true →
      ∃ j t, j < k ∧ Reorder.win2Step nodenum fuel u = some t ∧ I j t := by
    intro k u hI hsome
    obtain ⟨A', B', rfl, hon, hperm, hle⟩ := hI
    rw [hon.laid.next] at hsome
    cases B' with
    | nil => exact absurd hsome Bool.false_ne_true
    | cons r B' =>
      obtain ⟨u', A'', hrun, hon', hperm', hle'⟩ := hon.win2Step nodenum hfuel
      exact ⟨B'.length, u', Nat.lt_succ_self _, hrun, A'', B', rfl, hon', hperm'.trans hperm,
        hle'.trans hle⟩
  obtain ⟨-, w', hrun, -, A', B', rfl, hon, hperm, hle⟩ := whileDo_total I hstep
    (k := B.length) (s := w) ⟨A, B, rfl, h, .refl _, Nat.le_refl _⟩
    (show B.length < fuel by rw [List.length_append, List.length_cons] at hlen; omega)
  refine ⟨w', _, hrun, by simp, hon.laid, hperm, ?_, hle⟩
  rw [head_append_cons, hon.first]

theorem Laid.on_first (h : Laid num X Y gs vars (x :: B) s) :
    Window.On num X Y gs vars [] B ⟨x, x, s⟩ := ⟨h, rfl⟩

/-- `reorder_win2` ends, with as many nodes as before or fewer. -/
theorem Laid.reorderWin2 (h : Laid num X Y gs vars bs s) (hx : bs.head? = some x)
    (hfuel : num * num < fuel) (hlen : bs.length < fuel) :
    ∃ first s' bs', reorderWin2 nodenum fuel x s = some (first, s') ∧
      Permuted nodenum num X Y gs vars bs (reorderNodenum nodenum s) first s' bs' := by
  obtain ⟨B, rfl⟩ : ∃ B, bs = x :: B := List.head?_eq_some_iff.mp hx
  obtain ⟨w', bs', hrun, -, hp⟩ := h.on_first.win2Pass nodenum hfuel hlen
  refine ⟨w'.first, w'.s, bs', ?_, hp⟩
  unfold Reorder.reorderWin2
  rw [hrun]
  rfl

/-- `reorder_win2ite` ends, with as many nodes as before or fewer. -/
theorem Laid.reorderWin2ite (h : Laid num X Y gs vars bs s) (hx : bs.head? = some x) {t : ℕ}
    (ht : t ∈ bs) (hfuel : num * num < fuel) (hlen : bs.length < fuel) {rounds : ℕ}
    (hrounds : reorderNodenum nodenum s < rounds) :
    ∃ first s' bs', reorderWin2ite nodenum fuel t rounds x s = some (first, s') ∧
      Permuted nodenum num X Y gs vars bs (reorderNodenum nodenum s) first s' bs' := by
  induction rounds generalizing s x bs with
  | zero => omega
  | succ rounds ih =>
    obtain ⟨A, B, rfl⟩ := List.append_of_mem ht
    have hon : Window.On num X Y gs vars A B ⟨t, x, s⟩ := ⟨h, by
      rw [← head_append_cons A t B]
      exact hx⟩
    obtain ⟨w', bs', hrun, hmem, hp⟩ := hon.win2Pass nodenum hfuel hlen
    have hle : reorderNodenum nodenum w'.s ≤ reorderNodenum nodenum s := hp.le
    unfold Reorder.reorderWin2ite
    simp only [hrun, Option.bind_eq_bind, Option.bind_some]
    by_cases hsame : reorderNodenum nodenum w'.s = reorderNodenum nodenum s
    · rw [if_neg fun hne => hne hsame]
      exact ⟨w'.first, w'.s, bs', rfl, hp⟩
    · rw [if_pos hsame]
      obtain ⟨first, s', bs'', hrun', hp'⟩ := ih hp.laid hp.first
        (hp.perm.mem_iff.mpr (by simp)) (hp.perm.length_eq ▸ hlen) (by omega)
      exact ⟨first, s', bs'', hrun', hp'.laid, hp'.perm.trans hp.perm, hp'.first, hp'.le.trans hle⟩

/-! ## The best order of three blocks -/

/-- The orders of a window of three blocks as `reorder_swapwin3` goes through them. -/
def turns (a b c : ℕ) : ℕ → List ℕ
  | 0 => [a, b, c]
  | 1 => [b, a, c]
  | 2 => [b, c, a]
  | 3 => [c, b, a]
  | 4 => [c, a, b]
  | _ => [a, c, b]

theorem turns_perm (a b c j : ℕ) : (turns a b c j).Perm [a, b, c] := by
  match j with
  | 0 => exact .refl _
  | 1 => exact .swap a b [c]
  | 2 => exact (List.perm_append_singleton a [b, c])
  | 3 => exact (List.reverse_perm [a, b, c])
  | 4 => exact (List.perm_append_singleton c [a, b]).symm
  | _ + 5 => exact .cons a (.swap b c [])

/-- After `k` exchanges: `best` is the least number of nodes so far, `pos` exchanges ago. -/
structure Tried (n : ℕ → ℕ) (k : ℕ) (t : Trial) : Prop where
  le : t.pos ≤ k
  best : t.best = n (k - t.pos)
  least : ∀ j ≤ k, t.best ≤ n j
  better : t.pos < k → t.best < n 0

/-- One more order of the window is tried. -/
theorem Laid.trial (nodenum : List ℕ → ℕ) {n : ℕ → ℕ} {k : ℕ} {t : Trial}
    (h : Laid num X Y gs vars (A ++ l :: r :: B) t.s) (ht : Tried n k t)
    (hn : n (k + 1) = size nodenum X Y gs vars (A ++ r :: l :: B))
    (hfuel : num * num < fuel) :
    ∃ t', trial nodenum fuel l t = some t' ∧ Laid num X Y gs vars (A ++ r :: l :: B) t'.s ∧
      Tried n (k + 1) t' := by
  obtain ⟨s', hrun, h'⟩ := h.exchange hfuel
  have hsize : reorderNodenum nodenum s' = n (k + 1) := by rw [h'.size_eq, hn]
  unfold Reorder.trial
  simp only [hrun, Option.bind_eq_bind, Option.bind_some, hsize]
  by_cases hbetter : t.best > n (k + 1)
  · refine ⟨⟨s', n (k + 1), 0⟩, if_pos hbetter, h', Nat.zero_le _, rfl, fun j hj => ?_, fun _ => ?_⟩
    · rcases Nat.le_succ_iff.mp hj with hj | rfl
      · exact hbetter.le.trans (ht.least j hj)
      · exact Nat.le_refl _
    · exact hbetter.trans_le (ht.least 0 (Nat.zero_le _))
  · refine ⟨⟨s', t.best, t.pos + 1⟩, if_neg hbetter, h', Nat.succ_le_succ ht.le, ?_, fun j hj => ?_,
      fun hlt => ht.better (Nat.lt_of_succ_lt_succ hlt)⟩
    · rw [ht.best]
      exact congrArg n (by show _ = k + 1 - (t.pos + 1); omega)
    · rcases Nat.le_succ_iff.mp hj with hj | rfl
      · exact ht.least j hj
      · exact not_lt.mp hbetter

/-- On the way back: the blocks of the window are in the order `x y z`. -/
structure Return.On (num : ℕ) (X Y : List ℕ) (gs : List (List ℕ)) (vars : ℕ → List ℕ)
    (L R : List ℕ) (x y z : ℕ) (r : Return) : Prop where
  laid : Laid num X Y gs vars (L ++ x :: y :: z :: R) r.s
  first : (L ++ [x]).head? = some r.first

/-- The first block of the list, when another block came to the start of the window. -/
theorem head_first {setfirst : Bool} {f : ℕ} (hset : setfirst = L.getLast?.isNone)
    (h : (L ++ [x]).head? = some f) :
    (L ++ [y]).head? = some (if setfirst then y else f) := by
  cases L with
  | nil => rw [hset]; rfl
  | cons a L =>
    have hne : setfirst = false := by rw [hset, List.getLast?_cons]; rfl
    rw [hne]
    exact h

theorem Return.On.returnThis {u : Return} {setfirst : Bool} (h : u.On num X Y gs vars L R x y z)
    (hset : setfirst = L.getLast?.isNone) (hfuel : num * num < fuel) :
    ∃ u', returnThis fuel x setfirst u = some u' ∧ u'.On num X Y gs vars L R y x z ∧
      u'.this = x ∧ u'.next = x := by
  obtain ⟨s', hrun, h'⟩ := h.laid.exchange hfuel
  have hprev : (s'.tree x).prev = some y := by
    have hx : Laid num X Y gs vars ((L ++ [y]) ++ x :: z :: R) s' := by simpa using h'
    rw [hx.prev, List.getLast?_append]
    rfl
  refine ⟨⟨x, x, if setfirst then y else u.first, s'⟩, ?_, ⟨h', head_first hset h.first⟩, rfl, rfl⟩
  unfold Reorder.returnThis
  simp only [hrun, Option.bind_eq_bind, Option.bind_some, hprev]
  cases setfirst <;> rfl

theorem Return.On.returnPrev {u : Return} {setfirst : Bool} (h : u.On num X Y gs vars L R x y z)
    (hthis : u.this = y) (hset : setfirst = L.getLast?.isNone) (hfuel : num * num < fuel) :
    ∃ u', returnPrev fuel setfirst u = some u' ∧ u'.On num X Y gs vars L R x z y ∧
      u'.this = y ∧ u'.next = z := by
  have hlaid : Laid num X Y gs vars ((L ++ [x]) ++ y :: z :: R) u.s := by simpa using h.laid
  obtain ⟨s', hrun, h'⟩ := hlaid.exchange hfuel
  have hprev : (s'.tree y).prev = some z := by
    have hy : Laid num X Y gs vars ((L ++ [x] ++ [z]) ++ y :: R) s' := by simpa using h'
    rw [hy.prev, List.getLast?_append]
    rfl
  have hprev' : prevPrev s' y = some x := by
    unfold prevPrev
    rw [hprev, Option.bind_some, h'.prev, List.getLast?_append]
    rfl
  refine ⟨⟨y, z, if setfirst then x else u.first, s'⟩, ?_,
    ⟨by simpa using h', head_first hset h.first⟩, rfl, rfl⟩
  unfold Reorder.returnPrev
  simp only [hthis, hrun, Option.bind_eq_bind, Option.bind_some, hprev, hprev']
  cases setfirst <;> rfl

theorem Laid.prevPrev (h : Laid num X Y gs vars (L ++ x :: y :: z :: R) s) :
    prevPrev s z = some x := by
  have hz : Laid num X Y gs vars ((L ++ [x] ++ [y]) ++ z :: R) s := by simpa using h
  have hy : Laid num X Y gs vars ((L ++ [x]) ++ y :: z :: R) s := by simpa using h
  unfold Reorder.prevPrev
  rw [hz.prev, List.getLast?_append, show [y].getLast? = some y from rfl, Option.some_or,
    Option.bind_some, hy.prev, List.getLast?_append]
  rfl

/-- Where the steps back end. -/
structure Return.Ends (num : ℕ) (X Y : List ℕ) (gs : List (List ℕ)) (vars : ℕ → List ℕ)
    (L R : List ℕ) (a b c j : ℕ) (u : Return) : Prop where
  laid : Laid num X Y gs vars (L ++ turns a b c j ++ R) u.s
  first : (L ++ turns a b c j).head? = some u.first
  next : (∃ p q, turns a b c j = [p, u.next, q]) ∨ j = 5 ∧ u.next = a

theorem Return.On.ends {u : Return} {a b c j : ℕ} (h : u.On num X Y gs vars L R x y z)
    (hturn : turns a b c j = [x, y, z]) (hnext : u.next = y ∨ j = 5 ∧ u.next = a) :
    u.Ends num X Y gs vars L R a b c j := by
  refine ⟨by rw [hturn]; simpa using h.laid, ?_, hnext.imp_left fun hy => ⟨x, z, by rw [hturn, hy]⟩⟩
  rw [hturn, head_append_cons, h.first]

/-- The steps back end in the order that was there `pos` exchanges ago. -/
theorem Return.On.goBack {u : Return} {a b c pos : ℕ} {setfirst : Bool}
    (h : u.On num X Y gs vars L R a c b) (hthis : u.this = c) (hnext : u.next = a)
    (hset : setfirst = L.getLast?.isNone) (hfuel : num * num < fuel) (hpos : pos ≤ 5) :
    ∃ u', goBack fuel setfirst pos u = some u' ∧ u'.Ends num X Y gs vars L R a b c (5 - pos) := by
  have hc : Laid num X Y gs vars ((L ++ [a]) ++ c :: b :: R) u.s := by simpa using h.laid
  have hprev : (u.s.tree u.this).prev = some a := by
    rw [hthis, hc.prev, List.getLast?_append]
    rfl
  obtain ⟨u₁, hu₁, h₁, hthis₁, hnext₁⟩ := h.returnThis hset hfuel
  obtain ⟨u₂, hu₂, h₂, hthis₂, hnext₂⟩ := h₁.returnPrev hthis₁ hset hfuel
  have hprev₂ := hthis₂ ▸ h₂.laid.prevPrev
  obtain ⟨u₃, hu₃, h₃, hthis₃, hnext₃⟩ := h₂.returnThis hset hfuel
  obtain ⟨u₄, hu₄, h₄, hthis₄, hnext₄⟩ := h₃.returnPrev hthis₃ hset hfuel
  have hprev₄ := hthis₄ ▸ h₄.laid.prevPrev
  obtain ⟨u₅, hu₅, h₅, -, hnext₅⟩ := h₄.returnThis hset hfuel
  unfold Reorder.goBack stepBack
  match pos, hpos with
  | 0, _ => exact ⟨u, rfl, h.ends rfl (Or.inr ⟨rfl, hnext⟩)⟩
  | 1, _ => exact ⟨u₁, by simp [hprev, hu₁], h₁.ends rfl (Or.inl hnext₁)⟩
  | 2, _ => exact ⟨u₂, by simp [hprev, hu₁, hu₂], h₂.ends rfl (Or.inl hnext₂)⟩
  | 3, _ =>
    exact ⟨u₃, by simp [hprev, hu₁, hu₂, hprev₂, hu₃], h₃.ends rfl (Or.inl hnext₃)⟩
  | 4, _ =>
    exact ⟨u₄, by simp [hprev, hu₁, hu₂, hprev₂, hu₃, hu₄], h₄.ends rfl (Or.inl hnext₄)⟩
  | 5, _ =>
    exact ⟨u₅, by simp [hprev, hu₁, hu₂, hprev₂, hu₃, hu₄, hprev₄, hu₅],
      h₅.ends rfl (Or.inl hnext₅)⟩

/-- The number of nodes of each order of the window. -/
def sizes (nodenum : List ℕ → ℕ) (X Y : List ℕ) (gs : List (List ℕ)) (vars : ℕ → List ℕ)
    (L R : List ℕ) (a b c j : ℕ) : ℕ := size nodenum X Y gs vars (L ++ turns a b c j ++ R)

/-- Where `reorder_swapwin3` leaves a window of the blocks `a b c`: in the best of their orders, and
the next window starts at its second block; or the order has become better, and the next window
starts at the same block. -/
structure Swapped (nodenum : List ℕ → ℕ) (num : ℕ) (X Y : List ℕ) (gs : List (List ℕ))
    (vars : ℕ → List ℕ) (L R : List ℕ) (a b c j : ℕ) (w : Window) : Prop where
  laid : Laid num X Y gs vars (L ++ turns a b c j ++ R) w.s
  first : (L ++ turns a b c j).head? = some w.first
  next : (∃ p q, turns a b c j = [p, w.this, q]) ∨ j = 5 ∧ w.this = a
  least : ∀ i ≤ 5, sizes nodenum X Y gs vars L R a b c j ≤ sizes nodenum X Y gs vars L R a b c i
  better : j ≠ 0 → sizes nodenum X Y gs vars L R a b c j < sizes nodenum X Y gs vars L R a b c 0

theorem Laid.realSwapwin3 (nodenum : List ℕ → ℕ) {a b c : ℕ}
    (h : Laid num X Y gs vars (L ++ a :: b :: c :: R) w.s) (ha : w.this = a)
    (hfirst : (L ++ [a]).head? = some w.first) (hfuel : num * num < fuel) :
    ∃ w' j, realSwapwin3 nodenum fuel w = some w' ∧
      Swapped nodenum num X Y gs vars L R a b c j w' := by
  have happ : ∀ j, sizes nodenum X Y gs vars L R a b c j =
      size nodenum X Y gs vars (L ++ (turns a b c j ++ R)) := fun j =>
    congrArg _ (List.append_assoc ..)
  have hset : (w.s.tree a).prev.isNone = L.getLast?.isNone := congrArg Option.isNone h.prev
  have ht₀ : Tried (sizes nodenum X Y gs vars L R a b c) 0
      ⟨w.s, reorderNodenum nodenum w.s, 0⟩ := by
    have hbest : reorderNodenum nodenum w.s = sizes nodenum X Y gs vars L R a b c 0 := by
      rw [h.size_eq, happ]
      rfl
    refine ⟨Nat.le_refl _, hbest, fun j hj => ?_, fun hlt => absurd hlt (Nat.lt_irrefl _)⟩
    rw [Nat.le_zero.mp hj]
    exact hbest.le
  -- all orders are tried
  obtain ⟨t₁, hrun₁, h₁, ht₁⟩ := h.trial nodenum ht₀ (happ 1) hfuel
  have h₁' : Laid num X Y gs vars ((L ++ [b]) ++ a :: c :: R) t₁.s := by simpa using h₁
  obtain ⟨t₂, hrun₂, h₂, ht₂⟩ := h₁'.trial nodenum ht₁ ((happ 2).trans (by simp [turns])) hfuel
  have h₂' : Laid num X Y gs vars (L ++ b :: c :: a :: R) t₂.s := by simpa using h₂
  obtain ⟨t₃, hrun₃, h₃, ht₃⟩ := h₂'.trial nodenum ht₂ (happ 3) hfuel
  have h₃' : Laid num X Y gs vars ((L ++ [c]) ++ b :: a :: R) t₃.s := by simpa using h₃
  obtain ⟨t₄, hrun₄, h₄, ht₄⟩ := h₃'.trial nodenum ht₃ ((happ 4).trans (by simp [turns])) hfuel
  have h₄' : Laid num X Y gs vars (L ++ c :: a :: b :: R) t₄.s := by simpa using h₄
  obtain ⟨t₅, hrun₅, h₅, ht₅⟩ := h₄'.trial nodenum ht₄ (happ 5) hfuel
  have hu : Return.On num X Y gs vars L R a c b ⟨c, a, w.first, t₅.s⟩ := ⟨h₅, hfirst⟩
  obtain ⟨u, hback, hends⟩ := hu.goBack rfl rfl hset hfuel ht₅.le
  refine ⟨⟨u.next, u.first, u.s⟩, 5 - t₅.pos, ?_, hends.laid, hends.first, hends.next,
    fun i hi => ?_, fun hne => ?_⟩
  · unfold Reorder.realSwapwin3
    simp only [ha, hrun₁, hrun₂, hrun₃, hrun₄, hrun₅, h₂'.prevPrev, h₄'.prevPrev, hback,
      Option.bind_eq_bind, Option.bind_some]
    rfl
  · exact ht₅.best ▸ ht₅.least i hi
  · exact ht₅.best ▸ ht₅.better (show t₅.pos < 5 by omega)

theorem Window.On.twoSwapwin3 (nodenum : List ℕ → ℕ) (h : w.On num X Y gs vars A [r])
    (hfuel : num * num < fuel) :
    ∃ w' A', twoSwapwin3 nodenum fuel w = some w' ∧ w'.On num X Y gs vars A' [] ∧
      (A' ++ [w'.this]).Perm (A ++ [w.this, r]) ∧
      reorderNodenum nodenum w'.s ≤ reorderNodenum nodenum w.s := by
  obtain ⟨s₁, hrun₁, h₁, hprev, s₂, hrun₂, h₂, hnext⟩ := h.laid.tryExchange hfuel
  have hset : (w.s.tree w.this).prev.isNone = A.getLast?.isNone :=
    congrArg Option.isNone h.laid.prev
  unfold Reorder.twoSwapwin3
  simp only [hrun₁, Option.bind_eq_bind, Option.bind_some]
  by_cases hworse : reorderNodenum nodenum w.s < reorderNodenum nodenum s₁
  · refine ⟨⟨r, w.first, s₂⟩, A ++ [w.this], ?_, ⟨by simpa using h₂, ?_⟩, by simp, ?_⟩
    · rw [if_pos hworse, hprev, Option.bind_some, hrun₂, Option.bind_some, hnext]
      rfl
    · rw [List.append_assoc, List.singleton_append, head_append_cons, h.first]
    · show reorderNodenum nodenum s₂ ≤ _
      rw [h₂.size_eq, h.laid.size_eq]
  · have hfirst := head_first (y := r) hset h.first
    refine ⟨⟨w.this, if (w.s.tree w.this).prev.isNone then r else w.first, s₁⟩, A ++ [r], ?_,
      ⟨by simpa using h₁, ?_⟩, ?_, not_lt.mp hworse⟩
    · rw [if_neg hworse, hprev]
      cases (w.s.tree w.this).prev.isNone <;> rfl
    · rw [List.append_assoc, List.singleton_append, head_append_cons, hfirst]
    · rw [List.append_assoc]
      exact (List.Perm.swap w.this r []).append_left A

/-- A step of a window of three blocks: the order becomes better; or it stays, if it is the best
one, and the window moves on. -/
theorem Window.On.realStep (nodenum : List ℕ → ℕ) {b c : ℕ}
    (h : w.On num X Y gs vars A (b :: c :: R)) (hfuel : num * num < fuel) :
    ∃ w' A' B', reorderSwapwin3 nodenum fuel w = some w' ∧ w'.On num X Y gs vars A' B' ∧
      (A' ++ w'.this :: B').Perm (A ++ w.this :: b :: c :: R) ∧
      (reorderNodenum nodenum w'.s < reorderNodenum nodenum w.s ∨
        A' = A ++ [w.this] ∧ w'.this = b ∧ B' = c :: R ∧
        reorderNodenum nodenum w'.s = reorderNodenum nodenum w.s ∧
        ∀ i ≤ 5, reorderNodenum nodenum w.s ≤ sizes nodenum X Y gs vars A R w.this b c i) := by
  obtain ⟨w', j, hrun, hswap⟩ := h.laid.realSwapwin3 nodenum rfl h.first hfuel
  have hsize : reorderNodenum nodenum w.s = sizes nodenum X Y gs vars A R w.this b c 0 := by
    rw [h.laid.size_eq]
    exact congrArg _ (List.append_assoc A [w.this, b, c] R).symm
  have hsize' : reorderNodenum nodenum w'.s = sizes nodenum X Y gs vars A R w.this b c j :=
    hswap.laid.size_eq
  have hperm : (A ++ turns w.this b c j ++ R).Perm (A ++ w.this :: b :: c :: R) := by
    rw [List.append_assoc]
    exact ((turns_perm w.this b c j).append_right R).append_left A
  have hstep : reorderSwapwin3 nodenum fuel w = some w' := by
    have hmid : Laid num X Y gs vars ((A ++ [w.this]) ++ b :: c :: R) w.s := by simpa using h.laid
    unfold Reorder.reorderSwapwin3
    rw [h.laid.next, List.head?_cons, Option.bind_eq_bind, Option.bind_some, hmid.next]
    exact hrun
  by_cases hj : j = 0
  · -- the order has not changed
    subst hj
    obtain ⟨p, q, hturn⟩ : ∃ p q, turns w.this b c 0 = [p, w'.this, q] :=
      hswap.next.resolve_right fun hand => absurd hand.1 (by decide)
    obtain ⟨-, hb, -⟩ : w.this = p ∧ b = w'.this ∧ c = q := by simpa [turns] using hturn
    refine ⟨w', A ++ [w.this], c :: R, hstep, ⟨by simpa [turns, hb] using hswap.laid, ?_⟩, ?_,
      Or.inr ⟨rfl, hb.symm, rfl, by rw [hsize', hsize], fun i hi => ?_⟩⟩
    · rw [List.append_assoc, List.singleton_append, head_append_cons, ← hswap.first]
      exact (head_append_cons A w.this [b, c]).symm
    · simp [hb]
    · rw [hsize]
      exact hswap.least i hi
  · have hbetter : reorderNodenum nodenum w'.s < reorderNodenum nodenum w.s := by
      rw [hsize', hsize]
      exact hswap.better hj
    rcases hswap.next with ⟨p, q, hturn⟩ | ⟨rfl, ha⟩
    · have hlaid := hswap.laid
      have hfirst := hswap.first
      rw [hturn] at hlaid hfirst hperm
      refine ⟨w', A ++ [p], q :: R, hstep, ⟨by simpa using hlaid, ?_⟩, by simpa using hperm,
        Or.inl hbetter⟩
      rw [List.append_assoc, List.singleton_append, head_append_cons, ← hfirst]
      exact (head_append_cons A p [w'.this, q]).symm
    · refine ⟨w', A, c :: b :: R, hstep, ⟨by simpa [turns, ha] using hswap.laid, ?_⟩, ?_,
        Or.inl hbetter⟩
      · rw [ha, ← hswap.first]
        exact (head_append_cons A w.this [c, b]).symm
      · rw [ha]
        exact (List.Perm.cons _ (List.Perm.swap b c R)).append_left A

/-- A step of the window of `reorder_win3`. -/
theorem Window.On.swapwin3 (nodenum : List ℕ → ℕ) (h : w.On num X Y gs vars A (r :: B))
    (hfuel : num * num < fuel) :
    ∃ w' A' B', reorderSwapwin3 nodenum fuel w = some w' ∧ w'.On num X Y gs vars A' B' ∧
      (A' ++ w'.this :: B').Perm (A ++ w.this :: r :: B) ∧
      (reorderNodenum nodenum w'.s < reorderNodenum nodenum w.s ∨
        reorderNodenum nodenum w'.s ≤ reorderNodenum nodenum w.s ∧ B'.length ≤ B.length) := by
  cases B with
  | nil =>
    obtain ⟨w', A', hrun, hon, hperm, hle⟩ := h.twoSwapwin3 nodenum hfuel
    refine ⟨w', A', [], ?_, hon, hperm, Or.inr ⟨hle, Nat.le_refl _⟩⟩
    have hlast : Laid num X Y gs vars ((A ++ [w.this]) ++ [r]) w.s := by simpa using h.laid
    unfold Reorder.reorderSwapwin3
    rw [h.laid.next, List.head?_cons, Option.bind_eq_bind, Option.bind_some, hlast.next]
    exact hrun
  | cons c R =>
    obtain ⟨w', A', B', hrun, hon, hperm, hcases⟩ := h.realStep nodenum hfuel
    refine ⟨w', A', B', hrun, hon, hperm, hcases.imp_right fun hsame => ?_⟩
    rw [hsame.2.2.1]
    exact ⟨hsame.2.2.2.1.le, Nat.le_refl _⟩

/-- What bounds the steps of a window: the nodes, and then the blocks after the window. -/
theorem lex_lt {n n' len k k' : ℕ} (hk : k' < len) (h : n' < n ∨ n' ≤ n ∧ k' < k) :
    n' * len + k' < n * len + k := by
  rcases h with hn | hle
  · have := Nat.mul_le_mul_right len (show n' + 1 ≤ n from hn)
    rw [Nat.add_mul] at this
    omega
  · have := Nat.mul_le_mul_right len hle.1
    omega

/-- `reorder_win3` ends, with as many nodes as before or fewer. -/
theorem Laid.reorderWin3 (h : Laid num X Y gs vars bs s) (hx : bs.head? = some x)
    (hfuel : num * num < fuel) {rounds : ℕ}
    (hrounds : (reorderNodenum nodenum s + 1) * bs.length < rounds) :
    ∃ first s' bs', reorderWin3 nodenum fuel rounds x s = some (first, s') ∧
      Permuted nodenum num X Y gs vars bs (reorderNodenum nodenum s) first s' bs' := by
  obtain ⟨B, rfl⟩ : ∃ B, bs = x :: B := List.head?_eq_some_iff.mp hx
  let I (k : ℕ) (u : Window) : Prop := ∃ A' B', u.On num X Y gs vars A' B' ∧
    (A' ++ u.this :: B').Perm (x :: B) ∧ reorderNodenum nodenum u.s ≤ reorderNodenum nodenum s ∧
    k = reorderNodenum nodenum u.s * (x :: B).length + B'.length
  have hstep : ∀ k u, I k u → (u.s.tree u.this).next.isSome = true →
      ∃ j t, j < k ∧ reorderSwapwin3 nodenum fuel u = some t ∧ I j t := by
    intro k u hI hsome
    obtain ⟨A', B', hon, hperm, hle, rfl⟩ := hI
    rw [hon.laid.next] at hsome
    cases B' with
    | nil => exact absurd hsome Bool.false_ne_true
    | cons r B' =>
      obtain ⟨u', A'', B'', hrun, hon', hperm', hcases⟩ := hon.swapwin3 nodenum hfuel
      have hlen := (hperm'.trans hperm).length_eq
      rw [List.length_append, List.length_cons] at hlen
      refine ⟨_, u', lex_lt (by omega) (hcases.imp_right fun hand =>
        ⟨hand.1, by rw [List.length_cons]; omega⟩), hrun, A'', B'', hon', hperm'.trans hperm, ?_,
        rfl⟩
      rcases hcases with hlt | hand
      · exact hlt.le.trans hle
      · exact hand.1.trans hle
  rw [Nat.add_mul, Nat.one_mul, List.length_cons] at hrounds
  obtain ⟨-, w', hrun, -, A', B', hon, hperm, hle, -⟩ := whileDo_total I hstep
    (s := ⟨x, x, s⟩) ⟨[], B, h.on_first, .refl _, Nat.le_refl _, rfl⟩
    (show reorderNodenum nodenum s * (x :: B).length + B.length < rounds by
      rw [List.length_cons]
      omega)
  refine ⟨w'.first, w'.s, _, ?_, hon.laid, hperm, ?_, hle⟩
  · unfold Reorder.reorderWin3
    rw [hrun]
    rfl
  · rw [head_append_cons, hon.first]

/-- `reorder_swapwin3` goes through all orders. -/
theorem exists_turns {a b c : ℕ} {p : List ℕ} (hp : p.Perm [a, b, c]) :
    ∃ j ≤ 5, turns a b c j = p := by
  have hmem : p ∈ [a, b, c].permutations' := List.mem_permutations'.mpr hp
  simp only [List.permutations', List.permutations'Aux, List.flatMap_cons, List.flatMap_nil,
    List.append_nil, List.map_cons, List.map_nil, List.cons_append, List.nil_append,
    List.mem_cons, List.not_mem_nil, or_false] at hmem
  rcases hmem with rfl | rfl | rfl | rfl | rfl | rfl
  · exact ⟨0, by decide, rfl⟩
  · exact ⟨1, by decide, rfl⟩
  · exact ⟨2, by decide, rfl⟩
  · exact ⟨5, by decide, rfl⟩
  · exact ⟨4, by decide, rfl⟩
  · exact ⟨3, by decide, rfl⟩

/-- No other order of three neighbours has fewer nodes, for those that start before position `k`. -/
def BestBefore (nodenum : List ℕ → ℕ) (X Y : List ℕ) (gs : List (List ℕ)) (vars : ℕ → List ℕ)
    (bs : List ℕ) (k : ℕ) : Prop :=
  ∀ L a b c R, bs = L ++ a :: b :: c :: R → L.length < k → ∀ p, p.Perm [a, b, c] →
    size nodenum X Y gs vars bs ≤ size nodenum X Y gs vars (L ++ p ++ R)

/-- No other order of three neighbours has fewer nodes. -/
def LocallyBest (nodenum : List ℕ → ℕ) (X Y : List ℕ) (gs : List (List ℕ)) (vars : ℕ → List ℕ)
    (bs : List ℕ) : Prop :=
  ∀ L a b c R, bs = L ++ a :: b :: c :: R → ∀ p, p.Perm [a, b, c] →
    size nodenum X Y gs vars bs ≤ size nodenum X Y gs vars (L ++ p ++ R)

theorem BestBefore.succ {a b c : ℕ}
    (h : BestBefore nodenum X Y gs vars (A ++ a :: b :: c :: R) A.length)
    (hbest : ∀ i ≤ 5, size nodenum X Y gs vars (A ++ a :: b :: c :: R) ≤
      sizes nodenum X Y gs vars A R a b c i) :
    BestBefore nodenum X Y gs vars (A ++ a :: b :: c :: R) (A.length + 1) := by
  intro L a' b' c' R' heq hlt p hp
  rcases Nat.lt_succ_iff_lt_or_eq.mp hlt with hlt | hlen
  · exact h L a' b' c' R' heq hlt p hp
  · obtain ⟨rfl, htail⟩ := List.append_inj heq hlen.symm
    obtain ⟨rfl, rfl, rfl, rfl⟩ : a = a' ∧ b = b' ∧ c = c' ∧ R = R' := by simpa using htail
    obtain ⟨i, hi, rfl⟩ := exists_turns hp
    exact hbest i hi

/-- A pass of `reorder_win3ite`: the order becomes better, or it is the best one in all windows. -/
theorem Laid.win3itePass (nodenum : List ℕ → ℕ) (h : Laid num X Y gs vars (x :: B) s)
    (hfuel : num * num < fuel) {steps : ℕ}
    (hsteps : (reorderNodenum nodenum s + 1) * (x :: B).length < steps) :
    ∃ w' bs', whileDo twoAfter (reorderSwapwin3 nodenum fuel) steps ⟨x, x, s⟩ = some w' ∧
      Permuted nodenum num X Y gs vars (x :: B) (reorderNodenum nodenum s) w'.first w'.s bs' ∧
      (reorderNodenum nodenum w'.s = reorderNodenum nodenum s →
        LocallyBest nodenum X Y gs vars bs') := by
  let I (k : ℕ) (u : Window) : Prop := ∃ A' B', u.On num X Y gs vars A' B' ∧
    (A' ++ u.this :: B').Perm (x :: B) ∧ reorderNodenum nodenum u.s ≤ reorderNodenum nodenum s ∧
    (reorderNodenum nodenum u.s = reorderNodenum nodenum s →
      BestBefore nodenum X Y gs vars (A' ++ u.this :: B') A'.length) ∧
    k = reorderNodenum nodenum u.s * (x :: B).length + B'.length
  have htwo : ∀ {u : Window} {A' B' : List ℕ}, u.On num X Y gs vars A' B' →
      (twoAfter u = true ↔ ∃ b c R, B' = b :: c :: R) := by
    intro u A' B' hon
    unfold twoAfter
    rw [hon.laid.next]
    match B' with
    | [] => exact ⟨fun hf => absurd hf Bool.false_ne_true, fun ⟨_, _, _, hf⟩ => by cases hf⟩
    | b :: R =>
      have hb : Laid num X Y gs vars ((A' ++ [u.this]) ++ b :: R) u.s := by simpa using hon.laid
      rw [List.head?_cons, Option.bind_some, hb.next]
      cases R <;> simp
  have hstep : ∀ k u, I k u → twoAfter u = true →
      ∃ j t, j < k ∧ reorderSwapwin3 nodenum fuel u = some t ∧ I j t := by
    intro k u hI htwoAfter
    obtain ⟨A', B', hon, hperm, hle, hbest, rfl⟩ := hI
    obtain ⟨b, c, R, rfl⟩ := (htwo hon).mp htwoAfter
    obtain ⟨u', A'', B'', hrun, hon', hperm', hcases⟩ := hon.realStep nodenum hfuel
    have hlen := (hperm'.trans hperm).length_eq
    rw [List.length_append, List.length_cons] at hlen
    rcases hcases with hlt | ⟨rfl, hthis, rfl, hsize, hleast⟩
    · exact ⟨_, u', lex_lt (by omega) (Or.inl hlt), hrun, A'', B'', hon', hperm'.trans hperm,
        hlt.le.trans hle, fun heq => absurd (hlt.trans_le hle) (heq ▸ Nat.lt_irrefl _), rfl⟩
    · refine ⟨_, u', lex_lt (by omega) (Or.inr ⟨hsize.le, Nat.lt_succ_self _⟩), hrun,
        A' ++ [u.this], c :: R, hon', hperm'.trans hperm, hsize.trans_le hle, fun heq => ?_, rfl⟩
      have hsucc := (hbest (hsize.symm.trans heq)).succ fun i hi => by
        rw [← hon.laid.size_eq]
        exact hleast i hi
      rw [hthis, List.append_assoc, List.length_append, List.length_singleton]
      exact hsucc
  rw [Nat.add_mul, Nat.one_mul, List.length_cons] at hsteps
  obtain ⟨-, w', hrun, hend, A', B', hon, hperm, hle, hbest, -⟩ := whileDo_total I hstep
    (s := ⟨x, x, s⟩) ⟨[], B, h.on_first, .refl _, Nat.le_refl _,
      fun _ _ _ _ _ _ _ hlt => absurd hlt (Nat.not_lt_zero _), rfl⟩
    (show reorderNodenum nodenum s * (x :: B).length + B.length < steps by
      rw [List.length_cons]
      omega)
  refine ⟨w', _, hrun, ⟨hon.laid, hperm, ?_, hle⟩, fun heq L a b c R hbs => ?_⟩
  · rw [head_append_cons, hon.first]
  · -- a window of three blocks starts before the last one that was looked at
    refine hbest heq L a b c R hbs ?_
    have hshort : B'.length ≤ 1 := by
      cases B' with
      | nil => exact Nat.zero_le _
      | cons b R =>
        cases R with
        | nil => exact Nat.le_refl _
        | cons c R =>
          rw [(htwo hon).mpr ⟨b, c, R, rfl⟩] at hend
          cases hend
    have hlen := congrArg List.length hbs
    simp only [List.length_append, List.length_cons] at hlen
    omega

/-- `reorder_win3ite` ends, with as many nodes as before or fewer, in an order that no window of
three blocks makes better. -/
theorem Laid.reorderWin3ite (h : Laid num X Y gs vars bs s) (hx : bs.head? = some x)
    (hfuel : num * num < fuel) {steps rounds : ℕ}
    (hsteps : (reorderNodenum nodenum s + 1) * bs.length < steps)
    (hrounds : reorderNodenum nodenum s < rounds) :
    ∃ first s' bs', reorderWin3ite nodenum fuel steps rounds x s = some (first, s') ∧
      Permuted nodenum num X Y gs vars bs (reorderNodenum nodenum s) first s' bs' ∧
      LocallyBest nodenum X Y gs vars bs' := by
  induction rounds generalizing s x bs with
  | zero => omega
  | succ rounds ih =>
    obtain ⟨B, rfl⟩ : ∃ B, bs = x :: B := List.head?_eq_some_iff.mp hx
    obtain ⟨w', bs', hrun, hp, hbest⟩ := h.win3itePass nodenum hfuel hsteps
    have hle : reorderNodenum nodenum w'.s ≤ reorderNodenum nodenum s := hp.le
    unfold Reorder.reorderWin3ite
    simp only [hrun, Option.bind_eq_bind, Option.bind_some]
    by_cases hsame : reorderNodenum nodenum w'.s = reorderNodenum nodenum s
    · rw [if_neg fun hne => hne hsame]
      exact ⟨w'.first, w'.s, bs', rfl, hp, hbest hsame⟩
    · rw [if_pos hsame]
      have hfewer : (reorderNodenum nodenum w'.s + 1) * bs'.length < steps := by
        rw [hp.perm.length_eq]
        exact (Nat.mul_le_mul_right _ (Nat.succ_le_succ hle)).trans_lt hsteps
      obtain ⟨first, s', bs'', hrun', hp', hbest'⟩ := ih hp.laid hp.first hfewer (by omega)
      exact ⟨first, s', bs'', hrun', ⟨hp'.laid, hp'.perm.trans hp.perm, hp'.first,
        hp'.le.trans hle⟩, hbest'⟩

end

/-- All window permutations end, with the same blocks in another order of at most as many nodes. In
the order of `reorder_win3ite` no window of three blocks can be made better. -/
structure Windows (nodenum : List ℕ → ℕ) (X Y : List ℕ) (gs : List (List ℕ)) (bs : List ℕ) (x : ℕ)
    (s : Blocks) : Prop where
  laid : Laid s.env.bddvarnum X Y gs (fun b => (s.tree b).vars) bs s
  win2 : ∃ fuel first s' bs', reorderWin2 nodenum fuel x s = some (first, s') ∧
    Permuted nodenum s.env.bddvarnum X Y gs (fun b => (s.tree b).vars) bs (reorderNodenum nodenum s)
      first s' bs'
  win2ite : ∃ fuel rounds first s' bs',
    reorderWin2ite nodenum fuel x rounds x s = some (first, s') ∧
    Permuted nodenum s.env.bddvarnum X Y gs (fun b => (s.tree b).vars) bs (reorderNodenum nodenum s)
      first s' bs'
  win3 : ∃ fuel rounds first s' bs', reorderWin3 nodenum fuel rounds x s = some (first, s') ∧
    Permuted nodenum s.env.bddvarnum X Y gs (fun b => (s.tree b).vars) bs (reorderNodenum nodenum s)
      first s' bs'
  win3ite : ∃ fuel steps rounds first s' bs',
    reorderWin3ite nodenum fuel steps rounds x s = some (first, s') ∧
    Permuted nodenum s.env.bddvarnum X Y gs (fun b => (s.tree b).vars) bs (reorderNodenum nodenum s)
      first s' bs' ∧
    LocallyBest nodenum X Y gs (fun b => (s.tree b).vars) bs'

/-- Blocks that are in step can be permuted by windows. -/
theorem Listed.windows {bs : List ℕ} {s : Blocks} {x : ℕ} (h : Listed bs s) (hstep : InStep bs s)
    (hx : bs.head? = some x) (nodenum : List ℕ → ℕ) : ∃ X Y gs, Windows nodenum X Y gs bs x s := by
  obtain ⟨X, Y, gs, hlaid⟩ := h.laid hstep
  let fuel := s.env.bddvarnum * s.env.bddvarnum + bs.length + 1
  have hfuel : s.env.bddvarnum * s.env.bddvarnum < fuel := by omega
  have hlen : bs.length < fuel := by omega
  have hmem : x ∈ bs := List.mem_of_head? hx
  exact ⟨X, Y, gs, hlaid, ⟨fuel, hlaid.reorderWin2 hx hfuel hlen⟩,
    ⟨fuel, _, hlaid.reorderWin2ite hx hmem hfuel hlen (Nat.lt_succ_self _)⟩,
    ⟨fuel, _, hlaid.reorderWin3 hx hfuel (Nat.lt_succ_self _)⟩,
    ⟨fuel, _, _, hlaid.reorderWin3ite hx hfuel (Nat.lt_succ_self _) (Nat.lt_succ_self _)⟩⟩

theorem windows_four :
    ∃ X Y gs, Windows (fun o => o.idxOf 3) X Y gs [0, 1, 2] 0 fourVariables :=
  fourVariables_listed.windows fourVariables_inStep rfl fun o => o.idxOf 3

end MoToBuddy.Reorder
