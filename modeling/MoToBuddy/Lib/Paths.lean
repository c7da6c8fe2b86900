import MoToBuddy.Lib.DTree

/-!
# Paths

The decisions along the paths of a tree to `true`. An assignment that satisfies the function of a
tree takes exactly one of its paths, so that the paths are cubes that are disjoint and cover the
function.

* `DTree.first`: the path that takes a low branch wherever that is not `false`.
* `cube`: the tree of the decisions of a path.
* `fill`: a path with decisions at the levels of a list that it skips.
-/

namespace Decision

/-- The assignment takes all decisions of a path. -/
def Takes (x : ℕ → Bool) (π : List (ℕ × Bool)) : Prop := ∀ d ∈ π, x d.1 = d.2

section

variable {x : ℕ → Bool} {π : List (ℕ × Bool)} {d : ℕ × Bool}

@[simp] theorem takes_nil : Takes x [] := fun _ h => absurd h List.not_mem_nil

@[simp] theorem takes_cons : Takes x (d :: π) ↔ x d.1 = d.2 ∧ Takes x π := by
  simp [Takes]

end

namespace DTree

variable {M k l : ℕ} {t : DTree Bool} {x : ℕ → Bool} {π : List (ℕ × Bool)}

/-- The paths to `true`, those through the low branch first. -/
def paths : DTree Bool → List (List (ℕ × Bool))
  | leaf b => if b then [[]] else []
  | node level low high =>
    low.paths.map (List.cons (level, false)) ++ high.paths.map (List.cons (level, true))

@[simp] theorem paths_leaf (b : Bool) : (leaf b).paths = if b then [[]] else [] := rfl

theorem mem_paths_node {low high : DTree Bool} : π ∈ (node l low high).paths ↔
    (∃ ρ ∈ low.paths, (l, false) :: ρ = π) ∨ ∃ ρ ∈ high.paths, (l, true) :: ρ = π := by
  simp [paths]

/-- An assignment satisfies the function exactly when it takes one of the paths. -/
theorem eval_eq_true_iff : t.eval x = true ↔ ∃ π ∈ t.paths, Takes x π := by
  induction t with
  | leaf b => cases b <;> simp
  | node level low high ihl ihh =>
    rw [eval_node]
    simp only [mem_paths_node, or_and_right, exists_or, exists_exists_and_eq_and,
      takes_cons]
    cases hx : x level with
    | false => simpa [hx] using ihl
    | true => simpa [hx] using ihh

/-- No assignment takes two of them. -/
theorem paths_pairwise (t : DTree Bool) :
    t.paths.Pairwise fun π ρ => ∀ x, Takes x π → ¬ Takes x ρ := by
  induction t with
  | leaf b => cases b <;> simp
  | node level low high ihl ihh =>
    have hcons : ∀ (b : Bool) (L : List (List (ℕ × Bool))),
        (L.Pairwise fun π ρ => ∀ x, Takes x π → ¬ Takes x ρ) →
        (L.map (List.cons (level, b))).Pairwise fun π ρ => ∀ x, Takes x π → ¬ Takes x ρ := by
      intro b L hL
      refine List.pairwise_map.mpr (hL.imp fun h x hπ hρ => ?_)
      exact h x (takes_cons.mp hπ).2 (takes_cons.mp hρ).2
    refine List.pairwise_append.mpr ⟨hcons false _ ihl, hcons true _ ihh, ?_⟩
    intro π hπ ρ hρ x hx hx'
    obtain ⟨π', -, rfl⟩ := List.mem_map.mp hπ
    obtain ⟨ρ', -, rfl⟩ := List.mem_map.mp hρ
    -- they part at the root
    have hlow : x level = false := (takes_cons.mp hx).1
    have hhigh : x level = true := (takes_cons.mp hx').1
    simp [hlow] at hhigh

/-- The levels of a path increase, from the root's on. -/
theorem paths_levels (hs : t.Sorted M) (ha : t.Above k) (hπ : π ∈ t.paths) :
    (π.map Prod.fst).Pairwise (· < ·) ∧ ∀ d ∈ π, k ≤ d.1 ∧ d.1 < M := by
  induction t generalizing k π with
  | leaf b =>
    cases b with
    | false => simp at hπ
    | true =>
      have hnil : π = [] := by simpa using hπ
      simp [hnil]
  | node level low high ihl ihh =>
    obtain ⟨hlt, hal, hah, hsl, hsh⟩ := hs
    have hle : k ≤ level := ha
    have hcons : ∀ b (ρ : List (ℕ × Bool)),
        ((ρ.map Prod.fst).Pairwise (· < ·) ∧ ∀ d ∈ ρ, level + 1 ≤ d.1 ∧ d.1 < M) →
        ((((level, b) :: ρ).map Prod.fst).Pairwise (· < ·) ∧
          ∀ d ∈ (level, b) :: ρ, k ≤ d.1 ∧ d.1 < M) := by
      rintro b ρ ⟨hinc, hbound⟩
      refine ⟨List.pairwise_cons.mpr ⟨fun j hj => ?_, hinc⟩, fun d hd => ?_⟩
      · obtain ⟨d, hd, rfl⟩ := List.mem_map.mp hj
        have := hbound d hd
        show level < d.1
        omega
      · rcases List.mem_cons.mp hd with rfl | hd
        · exact ⟨hle, hlt⟩
        · have := hbound d hd
          omega
    rcases mem_paths_node.mp hπ with ⟨ρ, hρ, rfl⟩ | ⟨ρ, hρ, rfl⟩
    · exact hcons false ρ (ihl hsl hal hρ)
    · exact hcons true ρ (ihh hsh hah hρ)

theorem paths_nodup (hs : t.Sorted M) (hπ : π ∈ t.paths) : (π.map Prod.fst).Nodup :=
  (paths_levels hs t.above_zero hπ).1.imp fun h => Nat.ne_of_lt h

/-- The path that takes the low branch wherever that is not `false`. -/
def first : DTree Bool → List (ℕ × Bool)
  | leaf _ => []
  | node level low high =>
    if low = leaf false then (level, true) :: high.first else (level, false) :: low.first

theorem first_node (level : ℕ) (low high : DTree Bool) : (node level low high).first =
    if low = leaf false then (level, true) :: high.first else (level, false) :: low.first := rfl

theorem first_mem_paths (hr : t.Reduced) (ht : t ≠ leaf false) : t.first ∈ t.paths := by
  induction t with
  | leaf b => cases b <;> simp_all [first]
  | node level low high ihl ihh =>
    obtain ⟨hne, hrl, hrh⟩ := hr
    rw [first_node, mem_paths_node]
    split
    · rename_i hlow
      exact Or.inr ⟨_, ihh hrh fun hhigh => hne (hlow.trans hhigh.symm), rfl⟩
    · rename_i hlow
      exact Or.inl ⟨_, ihl hrl hlow, rfl⟩

end DTree

/-! ## Cubes -/

/-- The tree of the decisions of a path. -/
def cube : List (ℕ × Bool) → DTree Bool
  | [] => .leaf true
  | (level, b) :: π =>
    if b then .node level (.leaf false) (cube π) else .node level (cube π) (.leaf false)

theorem cube_cons (level : ℕ) (b : Bool) (π : List (ℕ × Bool)) : cube ((level, b) :: π) =
    if b then .node level (.leaf false) (cube π) else .node level (cube π) (.leaf false) := rfl

theorem eval_cube {π : List (ℕ × Bool)} {x : ℕ → Bool} : (cube π).eval x = true ↔ Takes x π := by
  induction π with
  | nil => simp [cube]
  | cons d π ih =>
    obtain ⟨level, b⟩ := d
    rw [cube_cons, takes_cons, ← ih]
    cases b <;> cases hx : x level <;> simp [DTree.eval_node, hx]

theorem cube_ne_false (π : List (ℕ × Bool)) : cube π ≠ .leaf false := by
  cases π with
  | nil => simp [cube]
  | cons d π =>
    obtain ⟨level, b⟩ := d
    rw [cube_cons]
    split <;> simp

/-- A path, with decisions for the value `pol` at the levels of the list that it skips. -/
def fill (pol : Bool) : List ℕ → List (ℕ × Bool) → List (ℕ × Bool)
  | [], π => π
  | l :: ls, [] => (l, pol) :: fill pol ls []
  | l :: ls, (k, b) :: π =>
    if k < l then (k, b) :: fill pol (l :: ls) π
    else if l < k then (l, pol) :: fill pol ls ((k, b) :: π)
    else (k, b) :: fill pol ls π
termination_by ls π => ls.length + π.length

section

variable {pol b : Bool} {k l : ℕ} {ls : List ℕ} {π : List (ℕ × Bool)}

@[simp] theorem fill_nil (pol : Bool) (π : List (ℕ × Bool)) : fill pol [] π = π := by
  rw [fill]

theorem fill_left (h : ∀ j ∈ ls, k < j) :
    fill pol ls ((k, b) :: π) = (k, b) :: fill pol ls π := by
  cases ls with
  | nil => simp
  | cons l ls => rw [fill, if_pos (h l List.mem_cons_self)]

theorem fill_right (h : ∀ d ∈ π, l < d.1) :
    fill pol (l :: ls) π = (l, pol) :: fill pol ls π := by
  cases π with
  | nil => rw [fill]
  | cons d π =>
    have hlt := h d List.mem_cons_self
    rw [fill, if_neg (by omega), if_pos hlt]

theorem fill_both : fill pol (l :: ls) ((l, b) :: π) = (l, b) :: fill pol ls π := by
  rw [fill, if_neg (Nat.lt_irrefl l), if_neg (Nat.lt_irrefl l)]

/-- Levels above those of the path come first. -/
theorem fill_append {ks : List ℕ} (h : ∀ j ∈ ks, ∀ d ∈ π, j < d.1) :
    fill pol (ks ++ ls) π = ks.map (·, pol) ++ fill pol ls π := by
  induction ks with
  | nil => simp
  | cons k ks ih =>
    rw [List.cons_append, fill_right (h k List.mem_cons_self),
      ih fun j hj => h j (List.mem_cons_of_mem k hj)]
    rfl

/-- The decisions of the path, and `pol` at the other levels of the list. -/
theorem mem_fill (hls : ls.Pairwise (· < ·)) (hπ : (π.map Prod.fst).Pairwise (· < ·))
    {d : ℕ × Bool} : d ∈ fill pol ls π ↔
      d ∈ π ∨ d.1 ∈ ls ∧ (∀ e ∈ π, e.1 ≠ d.1) ∧ d.2 = pol := by
  induction ls, π using fill.induct with
  | case1 π => simp
  | case2 l ls ih =>
    rw [fill, List.mem_cons, ih (List.pairwise_cons.mp hls).2 .nil]
    simp [Prod.ext_iff, or_and_right]
  | case3 l ls k b π hkl ih =>
    obtain ⟨hk, hπ'⟩ := List.pairwise_cons.mp hπ
    rw [fill, if_pos hkl, List.mem_cons, ih hls hπ', ← or_assoc, ← List.mem_cons]
    refine or_congr_right ⟨fun h => ⟨h.1, fun e he => ?_, h.2.2⟩, fun h =>
      ⟨h.1, fun e he => h.2.1 e (List.mem_cons_of_mem _ he), h.2.2⟩⟩
    rcases List.mem_cons.mp he with rfl | he
    · -- the levels of the list are below
      rcases List.mem_cons.mp h.1 with hd | hd
      · show k ≠ d.1
        omega
      · have := (List.pairwise_cons.mp hls).1 d.1 hd
        show k ≠ d.1
        omega
    · exact h.2.1 e he
  | case4 l ls k b π hkl hlk ih =>
    obtain ⟨hk, -⟩ := List.pairwise_cons.mp hπ
    obtain ⟨hl, hls'⟩ := List.pairwise_cons.mp hls
    have hfree : ∀ e ∈ (k, b) :: π, l < e.1 := fun e he => by
      rcases List.mem_cons.mp he with rfl | he
      · exact hlk
      · exact Nat.lt_trans hlk (hk e.1 (List.mem_map_of_mem he))
    rw [fill, if_neg hkl, if_pos hlk, List.mem_cons, ih hls' hπ]
    constructor
    · rintro (rfl | h | h)
      · exact Or.inr ⟨List.mem_cons_self, fun e he => (Nat.ne_of_lt (hfree e he)).symm, rfl⟩
      · exact Or.inl h
      · exact Or.inr ⟨List.mem_cons_of_mem _ h.1, h.2⟩
    · rintro (h | ⟨hd, hno, hpol⟩)
      · exact Or.inr (Or.inl h)
      · rcases List.mem_cons.mp hd with hd | hd
        · exact Or.inl (Prod.ext hd hpol)
        · exact Or.inr (Or.inr ⟨hd, hno, hpol⟩)
  | case5 l ls k b π hkl hlk ih =>
    obtain ⟨hk, hπ'⟩ := List.pairwise_cons.mp hπ
    obtain ⟨hl, hls'⟩ := List.pairwise_cons.mp hls
    have heq : k = l := by omega
    subst heq
    rw [fill, if_neg hkl, if_neg hlk, List.mem_cons, ih hls' hπ', ← or_assoc, ← List.mem_cons]
    refine or_congr_right ⟨fun h => ⟨List.mem_cons_of_mem _ h.1, fun e he => ?_, h.2.2⟩, fun h =>
      ⟨?_, fun e he => h.2.1 e (List.mem_cons_of_mem _ he), h.2.2⟩⟩
    · rcases List.mem_cons.mp he with rfl | he
      · exact Nat.ne_of_lt (hl d.1 h.1)
      · exact h.2.1 e he
    · exact (List.mem_cons.mp h.1).resolve_left (h.2.1 (k, b) List.mem_cons_self).symm

/-- The levels of a filled path increase. -/
theorem fill_pairwise (hls : ls.Pairwise (· < ·)) (hπ : (π.map Prod.fst).Pairwise (· < ·)) :
    ((fill pol ls π).map Prod.fst).Pairwise (· < ·) := by
  have hmem : ∀ {ls : List ℕ} {π : List (ℕ × Bool)}, ls.Pairwise (· < ·) →
      (π.map Prod.fst).Pairwise (· < ·) → ∀ j, (∀ l ∈ ls, j < l) →
      (∀ d ∈ π, j < d.1) → ∀ a ∈ (fill pol ls π).map Prod.fst, j < a := by
    intro ls π hls hπ j hj hj' a ha
    obtain ⟨d, hd, rfl⟩ := List.mem_map.mp ha
    rcases (mem_fill hls hπ).mp hd with h | h
    · exact hj' d h
    · exact hj d.1 h.1
  induction ls, π using fill.induct with
  | case1 π => simpa using hπ
  | case2 l ls ih =>
    obtain ⟨hl, hls'⟩ := List.pairwise_cons.mp hls
    rw [fill]
    exact List.pairwise_cons.mpr ⟨hmem hls' .nil l hl (by simp), ih hls' .nil⟩
  | case3 l ls k b π hkl ih =>
    obtain ⟨hk, hπ'⟩ := List.pairwise_cons.mp hπ
    rw [fill, if_pos hkl]
    refine List.pairwise_cons.mpr ⟨hmem hls hπ' k (fun j hj => ?_) fun d hd =>
      hk d.1 (List.mem_map_of_mem hd), ih hls hπ'⟩
    rcases List.mem_cons.mp hj with rfl | hj
    · exact hkl
    · exact Nat.lt_trans hkl ((List.pairwise_cons.mp hls).1 j hj)
  | case4 l ls k b π hkl hlk ih =>
    obtain ⟨hk, -⟩ := List.pairwise_cons.mp hπ
    obtain ⟨hl, hls'⟩ := List.pairwise_cons.mp hls
    rw [fill, if_neg hkl, if_pos hlk]
    refine List.pairwise_cons.mpr ⟨hmem hls' hπ l hl fun d hd => ?_, ih hls' hπ⟩
    rcases List.mem_cons.mp hd with rfl | hd
    · exact hlk
    · exact Nat.lt_trans hlk (hk d.1 (List.mem_map_of_mem hd))
  | case5 l ls k b π hkl hlk ih =>
    obtain ⟨hk, hπ'⟩ := List.pairwise_cons.mp hπ
    obtain ⟨hl, hls'⟩ := List.pairwise_cons.mp hls
    have heq : k = l := by omega
    subst heq
    rw [fill, if_neg hkl, if_neg hlk]
    exact List.pairwise_cons.mpr ⟨hmem hls' hπ' k hl fun d hd => hk d.1 (List.mem_map_of_mem hd),
      ih hls' hπ'⟩

end

end Decision
