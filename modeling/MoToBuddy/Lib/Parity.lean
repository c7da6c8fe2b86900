import Mathlib.Algebra.Ring.Parity
import Mathlib.Data.List.Perm.Basic
import MoToBuddy.Lib.DTree

/-!
# Exclusive-or over a set of variables

`xorOut` replaces a function, for every variable of a list, by the exclusive-or of its cofactors. On
a decision tree there is a cheaper recipe, `DTree.xorPaths`: the exclusive-or of the branches at
the decisions of the list. It counts every path to `true` that agrees with the assignment outside
the list, whereas a path that skips a variable of the list stands for an even number of
assignments. So the two agree where these paths are even in number (`DTree.xorPaths_eq_iff`).
-/

namespace BoolFun

variable {f g : (ℕ → Bool) → Bool} {V W : List ℕ} {v : ℕ}

/-- The exclusive-or of the two cofactors at a variable. -/
def xorAt (v : ℕ) (f : (ℕ → Bool) → Bool) (x : ℕ → Bool) : Bool :=
  f (Function.update x v false) ^^ f (Function.update x v true)

/-- Every variable of the list is replaced in turn. -/
def xorOut (V : List ℕ) (f : (ℕ → Bool) → Bool) : (ℕ → Bool) → Bool :=
  V.foldl (fun f v => xorAt v f) f

@[simp] theorem xorOut_cons (v : ℕ) (V : List ℕ) (f : (ℕ → Bool) → Bool) :
    xorOut (v :: V) f = xorOut V (xorAt v f) := rfl

theorem xorAt_comm (v w : ℕ) (f : (ℕ → Bool) → Bool) : xorAt v (xorAt w f) = xorAt w (xorAt v f) := by
  funext x
  unfold xorAt
  by_cases h : v = w
  · rw [h]
  · have hcomm : ∀ b c : Bool, Function.update (Function.update x v b) w c =
        Function.update (Function.update x w c) v b := fun b c => Function.update_comm h b c x
    simp only [hcomm, Bool.xor_assoc, Bool.xor_left_comm]

/-- The order of the variables does not matter. -/
theorem xorOut_perm (h : V.Perm W) (f : (ℕ → Bool) → Bool) : xorOut V f = xorOut W f :=
  h.foldl_eq' (fun _ _ _ _ f => xorAt_comm _ _ f) f

theorem xorAt_xor (v : ℕ) (f g : (ℕ → Bool) → Bool) :
    xorAt v (fun x => f x ^^ g x) = fun x => xorAt v f x ^^ xorAt v g x := by
  funext x
  simp only [xorAt, Bool.xor_assoc, Bool.xor_left_comm]

theorem xorOut_xor (V : List ℕ) (f g : (ℕ → Bool) → Bool) :
    xorOut V (fun x => f x ^^ g x) = fun x => xorOut V f x ^^ xorOut V g x := by
  induction V generalizing f g with
  | nil => rfl
  | cons v V ih => rw [xorOut_cons, xorAt_xor, ih, xorOut_cons, xorOut_cons]

/-- A constant is the same at both cofactors. -/
theorem xorOut_const (b : Bool) : xorOut V (fun _ => b) = fun _ => V.isEmpty && b := by
  have hfalse : ∀ V : List ℕ, xorOut V (fun _ => false) = fun _ => false := by
    intro V
    induction V with
    | nil => rfl
    | cons v V ih => exact ih
  cases V with
  | nil => rfl
  | cons v V =>
    have hat : xorAt v (fun _ => b) = fun _ => false := funext fun _ => Bool.xor_self b
    rw [xorOut_cons, hat, hfalse]
    rfl

/-- A decision on another variable stays. -/
theorem xorOut_decide (h : v ∉ V) (f g : (ℕ → Bool) → Bool) (x : ℕ → Bool) :
    xorOut V (fun x => if x v then f x else g x) x =
      if x v then xorOut V f x else xorOut V g x := by
  induction V generalizing f g with
  | nil => rfl
  | cons w V ih =>
    have hne : v ≠ w := fun he => h (he ▸ List.mem_cons_self)
    have hat : xorAt w (fun x => if x v then f x else g x) =
        fun x => if x v then xorAt w f x else xorAt w g x := by
      funext y
      simp only [xorAt, Function.update_of_ne hne]
      split <;> rfl
    rw [xorOut_cons, hat, ih (fun hv => h (List.mem_cons_of_mem _ hv))]
    rfl

end BoolFun

namespace Decision.DTree

open BoolFun

variable {M : ℕ} {t : DTree Bool} {V : List ℕ}

/-- The exclusive-or of the branches at the decisions of the list. -/
def xorPaths (V : List ℕ) : DTree Bool → (ℕ → Bool) → Bool
  | leaf b, _ => b
  | node level low high, x =>
    if level ∈ V then low.xorPaths V x ^^ high.xorPaths V x
    else if x level then high.xorPaths V x else low.xorPaths V x

/-- The paths to `true` that agree with `x` outside the list and skip a level of it. -/
def skipping (V : List ℕ) : DTree Bool → (ℕ → Bool) → ℕ
  | leaf b, _ => if V.isEmpty then 0 else b.toNat
  | node level low high, x =>
    if level ∈ V then low.skipping (V.erase level) x + high.skipping (V.erase level) x
    else if x level then high.skipping V x else low.skipping V x

theorem xorPaths_node (level : ℕ) (low high : DTree Bool) (x : ℕ → Bool) :
    (node level low high).xorPaths V x =
      if level ∈ V then low.xorPaths V x ^^ high.xorPaths V x
      else if x level then high.xorPaths V x else low.xorPaths V x := rfl

theorem skipping_node (level : ℕ) (low high : DTree Bool) (x : ℕ → Bool) :
    (node level low high).skipping V x =
      if level ∈ V then low.skipping (V.erase level) x + high.skipping (V.erase level) x
      else if x level then high.skipping V x else low.skipping V x := rfl

/-- Only the levels of the tree matter. -/
theorem xorPaths_congr {W : List ℕ} {k : ℕ} (h : t.Sorted M) (ha : t.Above k)
    (hVW : ∀ l, k ≤ l → l < M → (l ∈ V ↔ l ∈ W)) (x : ℕ → Bool) :
    t.xorPaths V x = t.xorPaths W x := by
  induction t generalizing k with
  | leaf b => rfl
  | node level low high ihl ihh =>
    obtain ⟨hlt, hal, hah, hsl, hsh⟩ := h
    have hle : k ≤ level := ha
    have hup : ∀ l, level + 1 ≤ l → l < M → (l ∈ V ↔ l ∈ W) := fun l hl => hVW l (by omega)
    rw [xorPaths_node, xorPaths_node, ihl hsl hal hup, ihh hsh hah hup]
    simp only [hVW level hle hlt]

/-- A tree without a level of the list stays. -/
theorem xorPaths_eq_eval {k : ℕ} (h : t.Sorted M) (ha : t.Above k) (hV : ∀ l ∈ V, l < k)
    (x : ℕ → Bool) : t.xorPaths V x = t.eval x := by
  have hnil : ∀ u : DTree Bool, u.xorPaths [] x = u.eval x := by
    intro u
    induction u with
    | leaf b => rfl
    | node level low high ihl ihh =>
      rw [xorPaths_node, if_neg List.not_mem_nil, ihl, ihh, eval_node]
  rw [← hnil]
  refine xorPaths_congr h ha (fun l hl _ => ?_) x
  exact iff_of_false (fun hmem => Nat.not_lt.mpr hl (hV l hmem)) List.not_mem_nil

/-- Paths that skip a level of the list are counted by one recipe and not by the other. -/
theorem xorPaths_xor_xorOut (h : t.Sorted M) (hV : V.Nodup) (x : ℕ → Bool) :
    (t.xorPaths V x ^^ xorOut V t.eval x) = decide (t.skipping V x % 2 = 1) := by
  induction t generalizing V with
  | leaf b =>
    have heval : (leaf b).eval = fun _ => b := funext fun _ => rfl
    rw [heval, xorOut_const]
    cases V with
    | nil => cases b <;> rfl
    | cons v V => cases b <;> rfl
  | node level low high ihl ihh =>
    obtain ⟨-, hal, hah, hsl, hsh⟩ := h
    have heval : (node level low high).eval = fun x => if x level then high.eval x else low.eval x :=
      funext fun x => eval_node level low high x
    rw [xorPaths_node, skipping_node, heval]
    by_cases hmem : level ∈ V
    · have hat : xorAt level (fun x => if x level then high.eval x else low.eval x) =
          fun x => low.eval x ^^ high.eval x := by
        funext y
        simp [xorAt, eval_update hsl hal, eval_update hsh hah]
      -- the other levels of the list are those of the branches
      have hbranch : ∀ u : DTree Bool, u.Sorted M → u.Above (level + 1) →
          u.xorPaths V x = u.xorPaths (V.erase level) x := fun u hs ha =>
        xorPaths_congr hs ha (fun l hl _ => (List.mem_erase_of_ne (by omega)).symm) x
      rw [if_pos hmem, if_pos hmem, xorOut_perm (List.perm_cons_erase hmem), xorOut_cons, hat,
        xorOut_xor, hbranch low hsl hal, hbranch high hsh hah]
      have hl := ihl hsl (hV.erase level)
      have hh := ihh hsh (hV.erase level)
      have hsum : ∀ a b : ℕ, decide ((a + b) % 2 = 1) =
          (decide (a % 2 = 1) ^^ decide (b % 2 = 1)) := by
        intro a b
        rcases Nat.mod_two_eq_zero_or_one a with ha | ha <;>
          rcases Nat.mod_two_eq_zero_or_one b with hb | hb <;> simp [Nat.add_mod, ha, hb]
      rw [hsum, ← hl, ← hh]
      simp only [Bool.xor_assoc, Bool.xor_left_comm]
    · rw [if_neg hmem, if_neg hmem, xorOut_decide hmem]
      split
      · exact ihh hsh hV
      · exact ihl hsl hV

/-- The recipe on the tree is right where an even number of paths skips a level of the list. -/
theorem xorPaths_eq_iff (h : t.Sorted M) (hV : V.Nodup) (x : ℕ → Bool) :
    t.xorPaths V x = xorOut V t.eval x ↔ Even (t.skipping V x) := by
  have hxor := xorPaths_xor_xorOut h hV x
  rw [Nat.even_iff]
  constructor
  · intro heq
    rw [heq, Bool.xor_self] at hxor
    have hne := of_decide_eq_false hxor.symm
    omega
  · intro heven
    rw [heven] at hxor
    exact bne_eq_false_iff_eq.mp hxor

/-- Two trees of one function give the same where the numbers of such paths have one parity. -/
theorem xorPaths_eq_xorPaths_iff {t' : DTree Bool} (h : t.Sorted M) (h' : t'.Sorted M)
    (heq : ∀ x, t.eval x = t'.eval x) (hV : V.Nodup) (x : ℕ → Bool) :
    t.xorPaths V x = t'.xorPaths V x ↔ t.skipping V x % 2 = t'.skipping V x % 2 := by
  have h1 := xorPaths_xor_xorOut h hV x
  have h2 := xorPaths_xor_xorOut h' hV x
  rw [show t'.eval = t.eval from funext fun x => (heq x).symm] at h2
  rw [← Bool.xor_right_inj (x := xorOut V t.eval x), Bool.xor_comm, h1, Bool.xor_comm _ (t'.xorPaths V x), h2,
    decide_eq_decide]
  omega

end Decision.DTree
