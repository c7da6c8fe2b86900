import Mathlib.Data.List.Basic
import Mathlib.Data.List.Nodup
import Mathlib.Data.Nat.Find
import Mathlib.Tactic.Common

/-!
# Two sequences interleaved on a range of positions

`Interleaved pos a L W c d`: the elements of `L` and of `W`, each in their order, fill the
positions from `a` on. The `n`-th of `L` stands behind `c n` elements of `W`, and the `m`-th of `W`
behind `d m` of `L`. Where an element of `L` stands right before one of `W`, the two can be
exchanged.

* `Interleaved.swap`: the exchange.
* `Interleaved.all`: when the first of `L` has passed all of `W`, every one has.
* `pull`: two lists merged element by element, and the interleaving it is.
-/

namespace Interleaving

variable {α : Type*} {pos : α → ℕ} {a : ℕ} {L W : List α} {c d : ℕ → ℕ} {n m : ℕ} {x y : α}

/-- The elements of the list stand on the positions from `i` on. -/
def Placed (pos : α → ℕ) : ℕ → List α → Prop
  | _, [] => True
  | i, x :: xs => pos x = i ∧ Placed pos (i + 1) xs

@[simp] theorem placed_nil (i : ℕ) : Placed pos i ([] : List α) := trivial

@[simp] theorem placed_cons (i : ℕ) (xs : List α) :
    Placed pos i (x :: xs) ↔ pos x = i ∧ Placed pos (i + 1) xs := Iff.rfl

@[simp] theorem placed_append (i : ℕ) (xs ys : List α) :
    Placed pos i (xs ++ ys) ↔ Placed pos i xs ∧ Placed pos (i + xs.length) ys := by
  induction xs generalizing i with
  | nil => simp
  | cons x xs ih =>
    rw [List.cons_append, placed_cons, placed_cons, ih, and_assoc, List.length_cons,
      show i + (xs.length + 1) = i + 1 + xs.length by omega]

theorem placed_iff {i : ℕ} {xs : List α} :
    Placed pos i xs ↔ ∀ n x, xs[n]? = some x → pos x = i + n := by
  induction xs generalizing i with
  | nil => simp
  | cons x xs ih =>
    rw [placed_cons, ih]
    constructor
    · rintro ⟨hx, hxs⟩ n y hy
      cases n with
      | zero => simp_all
      | succ n =>
        have h := hxs n y (by simpa using hy)
        omega
    · intro h
      refine ⟨h 0 x rfl, fun n y hy => ?_⟩
      have h := h (n + 1) y (by simpa using hy)
      omega

theorem Placed.congr {pos' : α → ℕ} {i : ℕ} {xs : List α} (h : Placed pos i xs)
    (heq : ∀ x ∈ xs, pos' x = pos x) : Placed pos' i xs := by
  rw [placed_iff] at h ⊢
  intro n x hx
  rw [heq x (List.mem_of_getElem? hx), h n x hx]

structure Interleaved (pos : α → ℕ) (a : ℕ) (L W : List α) (c d : ℕ → ℕ) : Prop where
  left : ∀ n x, L[n]? = some x → pos x = a + n + c n
  right : ∀ m y, W[m]? = some y → pos y = a + m + d m
  c_le : ∀ n < L.length, c n ≤ W.length
  d_le : ∀ m < W.length, d m ≤ L.length
  passed : ∀ n < L.length, ∀ m < W.length, (m < c n ↔ d m ≤ n)

namespace Interleaved

variable (h : Interleaved pos a L W c d)
include h

theorem mono (hn : n + 1 < L.length) : c n ≤ c (n + 1) := by
  by_contra hlt
  have hle := h.c_le n (by omega)
  have hthis := h.passed n (by omega) (c (n + 1)) (by omega)
  have hnext := h.passed (n + 1) hn (c (n + 1)) (by omega)
  omega

theorem mono_right (hm : m + 1 < W.length) : d m ≤ d (m + 1) := by
  by_contra hlt
  have hle := h.d_le m (by omega)
  have hthis := h.passed (d (m + 1)) (by omega) m (by omega)
  have hnext := h.passed (d (m + 1)) (by omega) (m + 1) hm
  omega

/-- Which of the two stands before the other. -/
theorem lt_iff (hx : L[n]? = some x) (hy : W[m]? = some y) : pos x < pos y ↔ c n ≤ m := by
  have hn := (List.getElem?_eq_some_iff.mp hx).1
  have hm := (List.getElem?_eq_some_iff.mp hy).1
  have hpass := h.passed n hn m hm
  rw [h.left n x hx, h.right m y hy]
  omega

theorem ne (hx : x ∈ L) (hy : y ∈ W) : x ≠ y := by
  rintro rfl
  obtain ⟨n, hn⟩ := List.mem_iff_getElem?.mp hx
  obtain ⟨m, hm⟩ := List.mem_iff_getElem?.mp hy
  have hpass := h.passed n (List.getElem?_eq_some_iff.mp hn).1 m (List.getElem?_eq_some_iff.mp hm).1
  have hleft := h.left n x hn
  have hright := h.right m x hm
  omega

/-- The `n`-th of `L` stands right before the first of `W` that it has not passed, unless its
successor in `L` does. -/
theorem behind (hn : n < L.length) (hc : c n < W.length)
    (hnext : n + 1 < L.length → c n ≠ c (n + 1)) : d (c n) = n + 1 := by
  have hthis := h.passed n hn (c n) hc
  have hd := h.d_le (c n) hc
  by_cases hlast : n + 1 < L.length
  · have hmono := h.mono hlast
    have hne := hnext hlast
    have hsucc := h.passed (n + 1) hlast (c n) hc
    omega
  · omega

/-- If the first of `L` has something to pass, then so has one that nothing of `L` is in the way
of. -/
theorem front (hL : 0 < L.length) (h0 : c 0 < W.length) :
    ∃ n < L.length, c n < W.length ∧ (n + 1 < L.length → c (n + 1) = W.length) := by
  let n := Nat.findGreatest (fun n => c n < W.length) (L.length - 1)
  have hfirst : c n < W.length :=
    Nat.findGreatest_spec (P := fun n => c n < W.length) (Nat.zero_le _) h0
  have hle : n ≤ L.length - 1 := Nat.findGreatest_le _
  refine ⟨n, by omega, hfirst, fun hnext => ?_⟩
  have hmax : ¬ c (n + 1) < W.length :=
    Nat.findGreatest_is_greatest (P := fun n => c n < W.length) (Nat.lt_succ_self n) (by omega)
  have hc := h.c_le _ hnext
  omega

/-- Two neighbours exchanged. -/
theorem swap {pos' : α → ℕ} (hx : L[n]? = some x) (hy : W[m]? = some y) (hc : c n = m)
    (hd : d m = n + 1) (hpx : pos' x = pos x + 1) (hpy : pos' y = pos x)
    (hrest : ∀ z, z ≠ x → z ≠ y → pos' z = pos z) :
    Interleaved pos' a L W (Function.update c n (m + 1)) (Function.update d m n) := by
  have hn := (List.getElem?_eq_some_iff.mp hx).1
  have hm := (List.getElem?_eq_some_iff.mp hy).1
  have hposx := h.left n x hx
  refine ⟨fun k z hz => ?_, fun k z hz => ?_, fun k hk => ?_, fun k hk => ?_, fun k hk j hj => ?_⟩
  · by_cases hk : k = n
    · subst hk
      obtain rfl : z = x := Option.some.inj (hz.symm.trans hx)
      rw [Function.update_self]
      omega
    · rw [Function.update_of_ne hk]
      have hposz := h.left k z hz
      rw [hrest z ?_ (h.ne (List.mem_of_getElem? hz) (List.mem_of_getElem? hy)), hposz]
      rintro rfl
      -- the elements of `L` are in order
      have hpassk := h.passed k (List.getElem?_eq_some_iff.mp hz).1 m hm
      have hck := h.c_le k (List.getElem?_eq_some_iff.mp hz).1
      rcases Nat.lt_or_gt_of_ne hk with hlt | hlt <;> omega
  · by_cases hk : k = m
    · subst hk
      obtain rfl : z = y := Option.some.inj (hz.symm.trans hy)
      rw [Function.update_self]
      omega
    · rw [Function.update_of_ne hk]
      have hposz := h.right k z hz
      have hposy := h.right m y hy
      rw [hrest z (h.ne (List.mem_of_getElem? hx) (List.mem_of_getElem? hz)).symm ?_, hposz]
      rintro rfl
      have hpassk := h.passed n hn k (List.getElem?_eq_some_iff.mp hz).1
      have hdk := h.d_le k (List.getElem?_eq_some_iff.mp hz).1
      rcases Nat.lt_or_gt_of_ne hk with hlt | hlt <;> omega
  · have hck := h.c_le k hk
    rw [Function.update_apply]
    split_ifs <;> omega
  · have hdk := h.d_le k hk
    rw [Function.update_apply]
    split_ifs <;> omega
  · have hpass := h.passed k hk j hj
    have hpassm := h.passed k hk m hm
    have hpassn := h.passed n hn j hj
    rw [Function.update_apply, Function.update_apply]
    split_ifs with h1 h2 h2
    · omega
    · subst h1; omega
    · subst h2; omega
    · exact hpass

/-- All have passed if the first has. -/
theorem all (h0 : c 0 = W.length) : Placed pos a W ∧ Placed pos (a + W.length) L := by
  have hc : ∀ n, n < L.length → c n = W.length := by
    intro n
    induction n with
    | zero => exact fun _ => h0
    | succ n ih =>
      intro hn
      have hprev := ih (by omega)
      have hmono := h.mono hn
      have hle := h.c_le (n + 1) hn
      omega
  rw [placed_iff, placed_iff]
  refine ⟨fun m y hy => ?_, fun n x hx => ?_⟩
  · have hm := (List.getElem?_eq_some_iff.mp hy).1
    have hright := h.right m y hy
    by_cases hL : L.length = 0
    · have hd := h.d_le m hm
      omega
    · have hpass := h.passed 0 (by omega) m hm
      omega
  · have hleft := h.left n x hx
    have hcn := hc n (List.getElem?_eq_some_iff.mp hx).1
    omega

/-- The roles of the two sequences are the same. -/
theorem symm : Interleaved pos a W L d c where
  left := h.right
  right := h.left
  c_le := h.d_le
  d_le := h.c_le
  passed m hm n hn := by
    have hpass := h.passed n hn m hm
    omega

/-- What lies behind all of them is behind them in the second sequence. -/
theorem append {T : List α} (hT : Placed pos (a + L.length + W.length) T) :
    Interleaved pos a L (W ++ T) c fun m => if m < W.length then d m else L.length where
  left := h.left
  right m y hy := by
    by_cases hm : m < W.length
    · rw [if_pos hm]
      rw [List.getElem?_append_left hm] at hy
      exact h.right m y hy
    · rw [if_neg hm]
      rw [List.getElem?_append_right (by omega)] at hy
      have hy := placed_iff.mp hT _ y hy
      omega
  c_le n hn := by
    have hc := h.c_le n hn
    rw [List.length_append]
    omega
  d_le m _ := by
    by_cases hm : m < W.length
    · rw [if_pos hm]
      exact h.d_le m hm
    · rw [if_neg hm]
  passed n hn m hm := by
    have hc := h.c_le n hn
    by_cases hm : m < W.length
    · rw [if_pos hm]
      exact h.passed n hn m hm
    · rw [if_neg hm]
      omega

/-- Where an element stands says how many it has passed. -/
theorem congr {c' d' : ℕ → ℕ} (hd : ∀ m < W.length, d m = d' m)
    (hc : ∀ n < L.length, c n = c' n) : Interleaved pos a L W c' d' where
  left n x hx := by rw [← hc n (List.getElem?_eq_some_iff.mp hx).1]; exact h.left n x hx
  right m y hy := by rw [← hd m (List.getElem?_eq_some_iff.mp hy).1]; exact h.right m y hy
  c_le n hn := hc n hn ▸ h.c_le n hn
  d_le m hm := hd m hm ▸ h.d_le m hm
  passed n hn m hm := by rw [← hc n hn, ← hd m hm]; exact h.passed n hn m hm

end Interleaved

/-- One after the other. -/
theorem Placed.interleaved (hL : Placed pos a L) (hW : Placed pos (a + L.length) W) :
    Interleaved pos a L W (fun _ => 0) fun _ => L.length where
  left := placed_iff.mp hL
  right m y hy := by
    have hy := placed_iff.mp hW m y hy
    omega
  c_le _ _ := Nat.zero_le _
  d_le _ _ := Nat.le_refl _
  passed n hn m _ := by
    constructor <;> intro h <;> omega

/-- The two lists merged, an element of the first and an element of the second in turn. -/
def pull : List α → List α → List α
  | [], ys => ys
  | x :: xs, [] => x :: xs
  | x :: xs, y :: ys => x :: y :: pull xs ys

@[simp] theorem pull_nil (xs : List α) : pull xs [] = xs := by cases xs <;> rfl

@[simp] theorem pull_singleton (x : α) (ys : List α) : pull [x] ys = x :: ys := by
  cases ys <;> rfl

theorem pull_eq_append {xs ys : List α} (h : ys = [] ∨ xs.length = 1) : pull xs ys = xs ++ ys := by
  rcases h with rfl | h
  · simp
  · obtain ⟨x, rfl⟩ := List.length_eq_one_iff.mp h
    simp

theorem pull_perm (xs ys : List α) : (pull xs ys).Perm (xs ++ ys) := by
  induction xs, ys using pull.induct with
  | case1 ys => exact .refl _
  | case2 x xs => simp
  | case3 x xs y ys ih =>
    refine ((ih.cons y).trans ?_).cons x
    exact List.perm_middle.symm

/-- The positions in a merge. -/
theorem placed_pull {xs ys : List α} :
    Placed pos a (pull xs ys) ↔
      (∀ n x, xs[n]? = some x → pos x = a + n + min n ys.length) ∧
      ∀ m y, ys[m]? = some y → pos y = a + m + min (m + 1) xs.length := by
  induction xs, ys using pull.induct generalizing a with
  | case1 ys => simp [pull, placed_iff]
  | case2 x xs => simp [pull, placed_iff]
  | case3 x xs y ys ih =>
    rw [pull, placed_cons, placed_cons, ih]
    constructor
    · rintro ⟨hx, hy, hxs, hys⟩
      refine ⟨fun n z hz => ?_, fun m z hz => ?_⟩
      · cases n with
        | zero => simp_all
        | succ n =>
          have h := hxs n z (by simpa using hz)
          rw [List.length_cons]
          omega
      · cases m with
        | zero => simp_all
        | succ m =>
          have h := hys m z (by simpa using hz)
          rw [List.length_cons]
          omega
    · rintro ⟨hxs, hys⟩
      have hx := hxs 0 x rfl
      have hy := hys 0 y rfl
      rw [List.length_cons] at hx hy
      refine ⟨by omega, by omega, fun n z hz => ?_, fun m z hz => ?_⟩
      · have h := hxs (n + 1) z (by simpa using hz)
        rw [List.length_cons] at h
        omega
      · have h := hys (m + 1) z (by simpa using hz)
        rw [List.length_cons] at h
        omega

/-- A merge is an interleaving with the second list and all that follows it. -/
theorem placed_pull_append {xs ys zs : List α}
    (h : Placed pos a (pull xs ys ++ zs)) : Interleaved pos a xs (ys ++ zs)
      (fun n => min n ys.length)
      fun m => if m < ys.length then min (m + 1) xs.length else xs.length := by
  have hlen : (pull xs ys).length = xs.length + ys.length := by
    rw [(pull_perm xs ys).length_eq, List.length_append]
  have hparts := (placed_append _ _ _).mp h
  have hpull := placed_pull.mp hparts.1
  have hrest := placed_iff.mp hparts.2
  refine ⟨hpull.1, fun m y hy => ?_, fun n _ => ?_, fun m _ => ?_, fun n hn m hm => ?_⟩
  · by_cases hm : m < ys.length
    · rw [if_pos hm]
      rw [List.getElem?_append_left hm] at hy
      exact hpull.2 m y hy
    · rw [if_neg hm]
      rw [List.getElem?_append_right (by omega)] at hy
      have hy := hrest _ y hy
      omega
  · rw [List.length_append]
    omega
  · split_ifs <;> omega
  · split_ifs <;> omega

/-- Lists merged with what lies behind each. -/
def lay (xs ys : List (List α)) : List α := (List.zipWith pull xs ys).flatten

theorem lay_append {xs ys xs' ys' : List (List α)} (h : xs.length = ys.length) :
    lay (xs ++ xs') (ys ++ ys') = lay xs ys ++ lay xs' ys' := by
  rw [lay, List.zipWith_append h, List.flatten_append]
  rfl

@[simp] theorem lay_cons (x y : List α) (xs ys : List (List α)) :
    lay (x :: xs) (y :: ys) = pull x y ++ lay xs ys := rfl

end Interleaving
