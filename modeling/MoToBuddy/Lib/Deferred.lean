import Mathlib.Data.List.Perm.Basic
import MoToBuddy.Lib.While

/-!
# Items that wait for others

Items are tried one after the other. An item that is not ready is put into an array of items that
wait, and whenever an item was done the array is swept: an item that is ready now is done, and the
last one takes its place.

* `sweep_spec`: a sweep does items that are ready; if it does none, none is ready.
* `run_spec`: all items are done in the end, in whatever order they come, if the items that one
  waits for have a smaller rank.
-/

namespace Deferred

open CountedLoop

variable {ι σ : Type*} (attempt : ι → σ → Option (Option σ))

/-- The body of the loop over the array: item `i` is tried. -/
def tryAt (t : ℕ × List ι × σ) : Option (ℕ × List ι × σ) :=
  match t.2.1[t.1]?, t.2.1.getLast? with
  | some x, some last => (attempt x t.2.2).map fun done =>
    match done with
    | none => (t.1 + 1, t.2)
    | some s =>
      if t.1 + 1 = t.2.1.length then (t.1 + 1, t.2.1.dropLast, s)
      else (t.1, (t.2.1.set t.1 last).dropLast, s)
  | _, _ => none

/-- One pass over the array. -/
def sweep (l : List ι) (s : σ) : Option (List ι × σ) :=
  (whileDo (fun t => t.1 < t.2.1.length) (tryAt attempt) (l.length + 1) (0, l, s)).map Prod.snd

/-- An item comes. -/
def feed (t : List ι × σ) (x : ι) : Option (List ι × σ) :=
  (attempt x t.2).bind fun done =>
    match done with
    | none => some (t.1 ++ [x], t.2)
    | some s => sweep attempt t.1 s

/-- Passes over the array until nothing waits, or one does nothing. -/
def settle : ℕ → List ι × σ → Option (List ι × σ)
  | 0, _ => none
  | fuel + 1, t =>
    if t.1.length = 0 then some t
    else (sweep attempt t.1 t.2).bind fun t' =>
      if t'.1.length = t.1.length then some t' else settle fuel t'

/-- All items come, and then there are passes. -/
def run (items : List ι) (s : σ) : Option (List ι × σ) :=
  (items.foldlM (feed attempt) ([], s)).bind fun t => settle attempt (t.1.length + 1) t

variable {attempt}

/-- The item is gone when the last one has taken its place. -/
theorem perm_set_dropLast {l : List ι} {i : ℕ} {x last : ι} (hx : l[i]? = some x)
    (hlast : l.getLast? = some last) (hi : i + 1 ≠ l.length) :
    l.Perm (x :: (l.set i last).dropLast) := by
  obtain ⟨hlt, rfl⟩ := List.getElem?_eq_some_iff.mp hx
  obtain ⟨a, rfl⟩ := List.getLast?_eq_some_iff.mp hlast
  have hia : i < a.length := by
    rw [List.length_append, List.length_singleton] at hi hlt
    omega
  rw [List.set_append_left i last hia, List.dropLast_concat, List.getElem_append_left hia,
    List.set_eq_take_append_cons_drop, if_pos hia]
  have hsplit : a = a.take i ++ a[i] :: a.drop (i + 1) := by
    rw [List.getElem_cons_drop, List.take_append_drop]
  refine ((hsplit ▸ List.perm_middle).append_right [last]).trans (.cons _ ?_)
  show (a.take i ++ a.drop (i + 1) ++ [last]).Perm _
  rw [List.append_assoc]
  exact (List.perm_append_singleton last _).append_left _

theorem perm_dropLast {l : List ι} {i : ℕ} {x : ι} (hx : l[i]? = some x)
    (hi : i + 1 = l.length) : l.Perm (x :: l.dropLast) := by
  obtain ⟨hlt, rfl⟩ := List.getElem?_eq_some_iff.mp hx
  have hne : l ≠ [] := List.ne_nil_of_length_pos (by omega)
  obtain rfl : i = l.length - 1 := by omega
  rw [← List.getLast_eq_getElem hne]
  nth_rewrite 1 [← List.dropLast_concat_getLast hne]
  exact List.perm_append_singleton _ _

/-! ## Passes -/

section Spec

variable {all rest done l : List ι} {Inv : List ι → σ → Prop} {Ready : List ι → ι → Prop}
  {s : σ} {t : ℕ × List ι × σ}

/-- What an attempt does, with the items that were done before. -/
def Attempts (attempt : ι → σ → Option (Option σ)) (all : List ι) (Inv : List ι → σ → Prop)
    (Ready : List ι → ι → Prop) : Prop :=
  ∀ done x rest s, (done ++ x :: rest).Perm all → Inv done s →
    (Ready done x ∧ ∃ s', attempt x s = some (some s') ∧ Inv (done ++ [x]) s') ∨
      (¬ Ready done x ∧ attempt x s = some none)

/-- Where a pass over the items `l` stands: either some item was done, or none before the
index is ready. -/
structure Passing (all : List ι) (Inv : List ι → σ → Prop) (Ready : List ι → ι → Prop)
    (rest done l : List ι) (t : ℕ × List ι × σ) (done' : List ι) : Prop where
  perm : (done' ++ (t.2.1 ++ rest)).Perm all
  inv : Inv done' t.2.2
  le : t.2.1.length ≤ l.length
  same : t.2.1.length = l.length → t.2.1 = l ∧ done' = done ∧
    ∀ j < t.1, ∀ x, l[j]? = some x → ¬ Ready done x

/-- An item is done: it moves from those that wait to those that are done. -/
theorem perm_done {done' l' : List ι} {x : ι} (hp : (done' ++ (l ++ rest)).Perm all)
    (hl : l.Perm (x :: l')) : (done' ++ [x] ++ (l' ++ rest)).Perm all := by
  refine List.Perm.trans ?_ hp
  rw [List.append_assoc]
  exact ((hl.append_right rest).symm).append_left done'

theorem Passing.step {done' : List ι} (hattempt : Attempts attempt all Inv Ready)
    (h : Passing all Inv Ready rest done l t done') (hlt : t.1 < t.2.1.length) :
    ∃ t' done'', tryAt attempt t = some t' ∧ Passing all Inv Ready rest done l t' done'' ∧
      t'.2.1.length - t'.1 < t.2.1.length - t.1 := by
  obtain ⟨x, hx⟩ : ∃ x, t.2.1[t.1]? = some x := ⟨_, List.getElem?_eq_getElem hlt⟩
  obtain ⟨last, hlast⟩ : ∃ last, t.2.1.getLast? = some last := by
    rw [← Option.isSome_iff_exists, List.getLast?_isSome]
    exact List.ne_nil_of_length_pos (by omega)
  have hmem : ∃ l', t.2.1.Perm (x :: l') := by
    obtain ⟨a, b, hab⟩ := List.append_of_mem (List.mem_of_getElem? hx)
    exact ⟨a ++ b, hab ▸ List.perm_middle⟩
  obtain ⟨l', hl'⟩ := hmem
  have hall : (done' ++ x :: (l' ++ rest)).Perm all := by
    have := perm_done h.perm hl'
    rwa [List.append_assoc] at this
  rcases hattempt done' x (l' ++ rest) t.2.2 hall h.inv with ⟨hready, s', hs', hinv⟩ | ⟨hnot, hnone⟩
  · -- the item was done
    have hgone : ∀ {k} {m : List ι}, t.2.1.Perm (x :: m) →
        Passing all Inv Ready rest done l (k, m, s') (done' ++ [x]) := fun hm => by
      have hlen := hm.length_eq
      have hle := h.le
      rw [List.length_cons] at hlen
      refine ⟨perm_done h.perm hm, hinv, ?_, fun heq => ?_⟩
      · dsimp only
        omega
      · dsimp only at heq
        omega
    have hlen : ∀ {m : List ι}, t.2.1.Perm (x :: m) → m.length + 1 = t.2.1.length := fun hm => by
      rw [hm.length_eq, List.length_cons]
    by_cases hend : t.1 + 1 = t.2.1.length
    · have hm := perm_dropLast hx hend
      refine ⟨(t.1 + 1, t.2.1.dropLast, s'), _, ?_, hgone hm, ?_⟩
      · simp [tryAt, hx, hlast, hs', hend]
      · have := hlen hm
        dsimp only
        omega
    · have hm := perm_set_dropLast hx hlast hend
      refine ⟨(t.1, (t.2.1.set t.1 last).dropLast, s'), _, ?_, hgone hm, ?_⟩
      · simp [tryAt, hx, hlast, hs', hend]
      · have := hlen hm
        dsimp only
        omega
  · refine ⟨(t.1 + 1, t.2), done', by simp [tryAt, hx, hlast, hnone], ?_, ?_⟩
    · refine ⟨h.perm, h.inv, h.le, fun heq => ?_⟩
      obtain ⟨rfl, rfl, hbefore⟩ := h.same heq
      refine ⟨rfl, rfl, fun j hj y hy => ?_⟩
      rcases Nat.lt_succ_iff_lt_or_eq.mp hj with hj | rfl
      · exact hbefore j hj y hy
      · obtain rfl : x = y := Option.some.inj (hx.symm.trans hy)
        exact hnot
    · dsimp only
      omega

/-- A pass does items that are ready, or there are none. -/
theorem sweep_spec (hattempt : Attempts attempt all Inv Ready)
    (hperm : (done ++ (l ++ rest)).Perm all) (hinv : Inv done s) :
    ∃ l' s' done', sweep attempt l s = some (l', s') ∧ (done' ++ (l' ++ rest)).Perm all ∧
      Inv done' s' ∧ l'.length ≤ l.length ∧
      (l'.length = l.length → l' = l ∧ done' = done ∧ ∀ x ∈ l, ¬ Ready done x) := by
  obtain ⟨k, t, hloop, hend, -, done', ht⟩ := whileDo_total
    (c := fun t : ℕ × List ι × σ => t.1 < t.2.1.length) (f := tryAt attempt)
    (fun k t => k = t.2.1.length - t.1 ∧ ∃ done', Passing all Inv Ready rest done l t done')
    (fun k t hk hlt => by
      obtain ⟨rfl, done', ht⟩ := hk
      obtain ⟨t', done'', htry, ht', hless⟩ := ht.step hattempt (of_decide_eq_true hlt)
      exact ⟨_, t', hless, htry, rfl, done'', ht'⟩)
    (k := l.length) (s := (0, l, s))
    ⟨rfl, done, hperm, hinv, Nat.le_refl _, fun _ => ⟨rfl, rfl, fun j hj => by omega⟩⟩
    (Nat.lt_succ_self l.length)
  refine ⟨t.2.1, t.2.2, done', by rw [sweep, hloop]; rfl, ht.perm, ht.inv, ht.le, fun heq => ?_⟩
  obtain ⟨hl, hd, hbefore⟩ := ht.same heq
  refine ⟨hl, hd, fun x hx => ?_⟩
  obtain ⟨j, hj⟩ := List.mem_iff_getElem?.mp hx
  refine hbefore j ?_ x hj
  have hjl := (List.getElem?_eq_some_iff.mp hj).1
  have := of_decide_eq_false hend
  omega

/-- An item that comes is done, or it waits. -/
theorem feed_spec {x : ι} (hattempt : Attempts attempt all Inv Ready)
    (hperm : (done ++ (l ++ x :: rest)).Perm all) (hinv : Inv done s) :
    ∃ l' s' done', feed attempt (l, s) x = some (l', s') ∧ (done' ++ (l' ++ rest)).Perm all ∧
      Inv done' s' := by
  have hall : (done ++ x :: (l ++ rest)).Perm all :=
    (List.perm_middle.symm.append_left done).trans hperm
  rcases hattempt done x (l ++ rest) s hall hinv with ⟨-, s', hs', hinv'⟩ | ⟨-, hnone⟩
  · have hperm' : (done ++ [x] ++ (l ++ rest)).Perm all := by
      rw [List.append_assoc]
      exact hall
    obtain ⟨l'', s'', done', hsweep, hp, hi, -⟩ := sweep_spec hattempt hperm' hinv'
    exact ⟨l'', s'', done', by simp [feed, hs', hsweep], hp, hi⟩
  · refine ⟨l ++ [x], s, done, by simp [feed, hnone], ?_, hinv⟩
    rw [List.append_assoc]
    exact hperm

theorem settle_spec (hattempt : Attempts attempt all Inv Ready)
    (hprogress : ∀ done l, (done ++ l).Perm all → l ≠ [] → ∃ x ∈ l, Ready done x) {fuel : ℕ}
    (hfuel : l.length < fuel) (hperm : (done ++ l).Perm all) (hinv : Inv done s) :
    ∃ s' done', settle attempt fuel (l, s) = some ([], s') ∧ done'.Perm all ∧ Inv done' s' := by
  induction fuel generalizing done l s with
  | zero => omega
  | succ fuel ih =>
    rw [settle]
    by_cases hl : l.length = 0
    · obtain rfl := List.length_eq_zero_iff.mp hl
      rw [List.append_nil] at hperm
      exact ⟨s, done, if_pos rfl, hperm, hinv⟩
    · rw [if_neg hl]
      have hperm' : (done ++ (l ++ [])).Perm all := by rwa [List.append_nil]
      obtain ⟨l', s', done', hsweep, hp, hi, hle, hsame⟩ := sweep_spec hattempt hperm' hinv
      rw [List.append_nil] at hp
      rw [hsweep, Option.bind_some]
      have hless : l'.length ≠ l.length := fun heq => by
        obtain ⟨-, -, hnone⟩ := hsame heq
        obtain ⟨x, hx, hready⟩ := hprogress done l hperm fun h => hl (by rw [h]; rfl)
        exact hnone x hx hready
      rw [if_neg hless]
      exact ih (by omega) hp hi

/-- All items are done, in some order. -/
theorem run_spec {items : List ι} (hattempt : Attempts attempt all Inv Ready)
    (hprogress : ∀ done l, (done ++ l).Perm all → l ≠ [] → ∃ x ∈ l, Ready done x)
    (hitems : items.Perm all) (hinv : Inv [] s) :
    ∃ s' done, run attempt items s = some ([], s') ∧ done.Perm all ∧ Inv done s' := by
  have hfold : ∀ (rest done l : List ι) (s : σ), (done ++ (l ++ rest)).Perm all → Inv done s →
      ∃ l' s' done', rest.foldlM (feed attempt) (l, s) = some (l', s') ∧
        (done' ++ l').Perm all ∧ Inv done' s' := by
    intro rest
    induction rest with
    | nil => exact fun done l s hp hi => ⟨l, s, done, rfl, by rwa [List.append_nil] at hp, hi⟩
    | cons x rest ih =>
      intro done l s hp hi
      obtain ⟨l₁, s₁, done₁, hfeed, hp₁, hi₁⟩ := feed_spec hattempt hp hi
      obtain ⟨l₂, s₂, done₂, hrest, h₂⟩ := ih done₁ l₁ s₁ hp₁ hi₁
      exact ⟨l₂, s₂, done₂, by rw [List.foldlM_cons, hfeed]; exact hrest, h₂⟩
  obtain ⟨l, s', done, hrun, hp, hi⟩ := hfold items [] [] s hitems hinv
  obtain ⟨s'', done', hsettle, hp', hi'⟩ :=
    settle_spec hattempt hprogress (Nat.lt_succ_self l.length) hp hi
  exact ⟨s'', done', by rw [run, hrun, Option.bind_some, hsettle], hp', hi'⟩

/-- An item of the smallest rank is ready, if what an item waits for has a smaller one. -/
theorem exists_ready (rank : ι → ℕ)
    (hwait : ∀ done x, x ∈ all → ¬ Ready done x → ∃ y ∈ all, y ∉ done ∧ rank y < rank x)
    (hperm : (done ++ l).Perm all) (hl : l ≠ []) : ∃ x ∈ l, Ready done x := by
  by_contra hno
  have hdown : ∀ n, ∀ x ∈ l, rank x = n → False := by
    intro n
    induction n using Nat.strongRecOn with
    | _ n ih =>
      rintro x hx rfl
      have hall : x ∈ all := hperm.mem_iff.mp (List.mem_append_right done hx)
      obtain ⟨y, hy, hnot, hlt⟩ := hwait done x hall fun hready => hno ⟨x, hx, hready⟩
      have hyl : y ∈ l := (List.mem_append.mp (hperm.mem_iff.mpr hy)).resolve_left hnot
      exact ih (rank y) hlt y hyl rfl
  obtain ⟨x, hx⟩ := List.exists_mem_of_ne_nil l hl
  exact hdown _ x hx rfl

end Spec

end Deferred
