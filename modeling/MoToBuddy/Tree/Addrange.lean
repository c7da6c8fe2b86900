import Mathlib.Algebra.Order.Ring.Int
import Mathlib.Data.List.Count
import Mathlib.Data.List.Perm.Basic
import Mathlib.Data.List.TakeWhile
import Mathlib.Tactic.Common

/-!
# Insertion of a variable block (`tree.c`)

A `BddTree *` is the list of siblings it starts: `next` and `nextlevel` are followed, and `prev`,
which is only read and written, is the address of a struct. The call fails with the null pointer,
which is also the empty list.

* `addrangeRec_cases`: the placements that `bddtree_addrange_rec` tells apart.
* `Placed.addrangeRec`, `Linked.addrangeRec`: sorted siblings stay sorted, nested and linked,
  whatever the call returns.
* `addrangeRec_blocks`: a range that crosses no block is added to the blocks, once.
-/

namespace MoToBuddy.Tree

/-- The data of a `BddTree` and its address. -/
structure Block where
  addr : ℕ
  first : ℤ
  last : ℤ
  seq : List ℤ
  fixed : ℤ
  id : ℤ
  prev : Option ℕ
  deriving DecidableEq, Repr

inductive BddTree
  | null
  | node (t : Block) (nextlevel next : BddTree)
  deriving DecidableEq, Repr

/-- The variables `first`, .., `last`. -/
def vars (first last : ℤ) : List ℤ :=
  (List.range (last - first + 1).toNat).map fun n : ℕ => first + n

/-- `update_seq`: the variables of the block in the order of their levels. -/
def updateSeq (var2level : ℕ → ℕ) (first last : ℤ) : List ℤ :=
  let level (n : ℤ) := var2level n.toNat
  let low := (vars first last).foldl (fun low n => if level n < level low then n else low) first
  (vars first last).foldl (fun seq n => seq.set (level n - level low) n)
    (List.replicate (last - first + 1).toNat 0)

section Addrange

variable (var2level : ℕ → ℕ) (addr : ℕ) (first last fixed id : ℤ)

/-- `bddtree_new` at the address `addr`, and what the caller fills in. -/
def newBlock (prev : Option ℕ) : Block :=
  { addr, first, last, fixed, id, prev, seq := updateSeq var2level first last }

/-- The loop for a range that starts before this section: the siblings that the range covers and
those after it, or nothing if one is covered in part. -/
def coverSplit : BddTree → Option (BddTree × BddTree)
  | .null => none
  | .node this nextlevel next =>
    if last ≥ this.first ∧ last < this.last then none
    else match next with
      | .null => some (.node this nextlevel .null, .null)
      | .node next₁ nextlevel₁ next₂ =>
        if last < next₁.first then
          some (.node this nextlevel .null, .node next₁ nextlevel₁ next₂)
        else (coverSplit (.node next₁ nextlevel₁ next₂)).map fun (covered, rest) =>
          (.node this nextlevel covered, rest)

def setPrev (prev : Option ℕ) : BddTree → BddTree
  | .null => .null
  | .node t nextlevel next => .node { t with prev } nextlevel next

/-- `bddtree_addrange_rec`. -/
def addrangeRec : BddTree → Option ℕ → BddTree
  | .null, prev =>
    if first < 0 ∨ last < 0 ∨ last < first then .null
    else .node (newBlock var2level addr first last fixed id prev) .null .null
  | .node t nextlevel next, _ =>
    if first < 0 ∨ last < 0 ∨ last < first then .null
    else if first = t.first ∧ last = t.last then .node t nextlevel next
    else if last < t.first then
      .node (newBlock var2level addr first last fixed id t.prev) .null
        (.node { t with prev := some addr } nextlevel next)
    else if first > t.last then .node t nextlevel (addrangeRec next (some t.addr))
    else if first ≥ t.first ∧ last ≤ t.last then .node t (addrangeRec nextlevel none) next
    else if first ≤ t.first then
      match coverSplit last (.node t nextlevel next) with
      | none => .null
      | some (covered, rest) =>
        .node (newBlock var2level addr first last fixed id t.prev) (setPrev none covered)
          (setPrev (some addr) rest)
    else .null

/-- `bddtree_addrange`. -/
def addrange (t : BddTree) : BddTree := addrangeRec var2level addr first last fixed id t none

end Addrange

/-! ## Forests -/

/-- The blocks of a list of siblings, without those below them. -/
def roots : BddTree → List Block
  | .null => []
  | .node t _ next => t :: roots next

def blocks : BddTree → List Block
  | .null => []
  | .node t nextlevel next => t :: (blocks nextlevel ++ blocks next)

/-- The variable that a list of siblings starts with is at least `lo`. -/
def StartsAt (lo : ℤ) : BddTree → Prop
  | .null => True
  | .node t _ _ => lo ≤ t.first

/-- Every list of siblings is sorted. -/
def Sorted : BddTree → Prop
  | .null => True
  | .node t nextlevel next => StartsAt (t.last + 1) next ∧ Sorted nextlevel ∧ Sorted next

/-- Siblings have no variable in common and lie in their parent, which is `[lo, hi]`. -/
def Nested (lo hi : ℤ) : BddTree → Prop
  | .null => True
  | .node t nextlevel next =>
    lo ≤ t.first ∧ t.first ≤ t.last ∧ t.last ≤ hi ∧
      (∀ t' ∈ roots next, t.last < t'.first ∨ t'.last < t.first) ∧
      Nested t.first t.last nextlevel ∧ Nested lo hi next

/-- The `prev` of a block is its left sibling, and `prev` for the first. -/
def Linked (prev : Option ℕ) : BddTree → Prop
  | .null => True
  | .node t nextlevel next => t.prev = prev ∧ Linked none nextlevel ∧ Linked (some t.addr) next

/-- The range and the block overlap in part. -/
def Crosses (first last : ℤ) (t : Block) : Prop :=
  first < t.first ∧ t.first ≤ last ∧ last < t.last ∨
    t.first < first ∧ first ≤ t.last ∧ t.last < last

/-- Sorted siblings in `[lo, hi]`. -/
def Placed (lo hi : ℤ) : BddTree → Prop
  | .null => True
  | .node t nextlevel next =>
    lo ≤ t.first ∧ t.first ≤ t.last ∧ t.last ≤ hi ∧ Placed t.first t.last nextlevel ∧
      Placed (t.last + 1) hi next

section

variable {lo lo' hi first last : ℤ} {t : BddTree} {prev : Option ℕ}

theorem Placed.startsAt (h : Placed lo hi t) (hs : StartsAt lo' t) : Placed lo' hi t := by
  cases t with
  | null => trivial
  | node t nextlevel next => exact ⟨hs, h.2⟩

theorem Nested.startsAt (h : Nested lo hi t) : StartsAt lo t := by
  cases t with
  | null => trivial
  | node t nextlevel next => exact h.1

theorem Nested.placed (h : Nested lo hi t) (hs : Sorted t) : Placed lo hi t := by
  induction t generalizing lo hi with
  | null => trivial
  | node t nextlevel next ihl ihn =>
    obtain ⟨hlo, hle, hhi, -, hl, hn⟩ := h
    exact ⟨hlo, hle, hhi, ihl hl hs.2.1, (ihn hn hs.2.2).startsAt hs.1⟩

theorem Placed.mem_roots (h : Placed lo hi t) {b : Block} (hb : b ∈ roots t) : lo ≤ b.first := by
  induction t generalizing lo with
  | null => simp [roots] at hb
  | node t nextlevel next _ ihn =>
    obtain ⟨hlo, hle, hhi, hl, hn⟩ := h
    rcases List.mem_cons.mp hb with rfl | hb
    · exact hlo
    · have := ihn hn hb
      omega

theorem Placed.nested (h : Placed lo hi t) : Nested lo hi t := by
  suffices ∀ lo', lo' ≤ lo → Nested lo' hi t from this lo le_rfl
  induction t generalizing lo hi with
  | null => exact fun _ _ => trivial
  | node t nextlevel next ihl ihn =>
    obtain ⟨hlo, hle, hhi, hl, hn⟩ := h
    intro lo' hlo'
    refine ⟨by omega, hle, hhi, fun b hb => Or.inl ?_, ihl hl _ le_rfl, ihn hn _ (by omega)⟩
    have := hn.mem_roots hb
    omega

theorem Placed.sorted (h : Placed lo hi t) : Sorted t := by
  induction t generalizing lo hi with
  | null => trivial
  | node t nextlevel next ihl ihn =>
    obtain ⟨hlo, hle, hhi, hl, hn⟩ := h
    exact ⟨hn.nested.startsAt, ihl hl, ihn hn⟩

theorem Nested.mem (h : Nested lo hi t) {b : Block} (hb : b ∈ blocks t) :
    lo ≤ b.first ∧ b.first ≤ b.last ∧ b.last ≤ hi := by
  induction t generalizing lo hi with
  | null => simp [blocks] at hb
  | node t nextlevel next ihl ihn =>
    obtain ⟨hlo, hle, hhi, -, hl, hn⟩ := h
    simp only [blocks, List.mem_cons, List.mem_append] at hb
    rcases hb with rfl | hb | hb
    · exact ⟨hlo, hle, hhi⟩
    · have := ihl hl hb
      omega
    · exact ihn hn hb

theorem roots_subset {b : Block} (hb : b ∈ roots t) : b ∈ blocks t := by
  induction t with
  | null => exact hb
  | node t nextlevel next _ ihn =>
    rcases List.mem_cons.mp hb with rfl | hb
    · exact List.mem_cons_self
    · exact List.mem_cons_of_mem _ (List.mem_append_right _ (ihn hb))

theorem Placed.mem (h : Placed lo hi t) {b : Block} (hb : b ∈ blocks t) :
    lo ≤ b.first ∧ b.first ≤ b.last ∧ b.last ≤ hi := h.nested.mem hb

end

/-! ## Placements -/

section Insert

variable (var2level : ℕ → ℕ) (addr : ℕ) (first last fixed id : ℤ)

/-- The placements of a range, and what the call makes of the list. -/
inductive Insert : BddTree → Option ℕ → BddTree → Prop
  | empty (prev : Option ℕ) :
    Insert .null prev (.node (newBlock var2level addr first last fixed id prev) .null .null)
  | same {t : Block} {nextlevel next : BddTree} (prev : Option ℕ) (hf : first = t.first)
    (hl : last = t.last) : Insert (.node t nextlevel next) prev (.node t nextlevel next)
  | before {t : Block} {nextlevel next : BddTree} (prev : Option ℕ) (h : last < t.first) :
    Insert (.node t nextlevel next) prev
      (.node (newBlock var2level addr first last fixed id t.prev) .null
        (setPrev (some addr) (.node t nextlevel next)))
  | after {t : Block} {nextlevel next r : BddTree} (prev : Option ℕ) (h : t.last < first)
    (hr : Insert next (some t.addr) r) :
    Insert (.node t nextlevel next) prev (.node t nextlevel r)
  | inside {t : Block} {nextlevel next r : BddTree} (prev : Option ℕ) (hf : t.first ≤ first)
    (hl : last ≤ t.last) (hne : ¬ (first = t.first ∧ last = t.last)) (hr : Insert nextlevel none r) :
    Insert (.node t nextlevel next) prev (.node t r next)
  | cover {t : Block} {nextlevel next covered rest : BddTree} (prev : Option ℕ)
    (hf : first ≤ t.first) (hl : t.first ≤ last) (hne : ¬ (t.first ≤ first ∧ last ≤ t.last))
    (hs : coverSplit last (.node t nextlevel next) = some (covered, rest)) :
    Insert (.node t nextlevel next) prev
      (.node (newBlock var2level addr first last fixed id t.prev) (setPrev none covered)
        (setPrev (some addr) rest))
  | coverPart {t : Block} {nextlevel next : BddTree} (prev : Option ℕ)
    (hf : first ≤ t.first) (hl : t.first ≤ last) (hne : ¬ (t.first ≤ first ∧ last ≤ t.last))
    (hs : coverSplit last (.node t nextlevel next) = none) :
    Insert (.node t nextlevel next) prev .null
  | straddle {t : Block} {nextlevel next : BddTree} (prev : Option ℕ) (hf : t.first < first)
    (hm : first ≤ t.last) (hl : t.last < last) : Insert (.node t nextlevel next) prev .null

theorem addrangeRec_insert (hf : 0 ≤ first) (hle : first ≤ last) (t : BddTree) (prev : Option ℕ) :
    Insert var2level addr first last fixed id t prev
      (addrangeRec var2level addr first last fixed id t prev) := by
  have hok : ¬ (first < 0 ∨ last < 0 ∨ last < first) := by omega
  induction t generalizing prev with
  | null =>
    rw [addrangeRec, if_neg hok]
    exact .empty prev
  | node t nextlevel next ihl ihn =>
    rw [addrangeRec, if_neg hok]
    split
    · rename_i h
      exact .same prev h.1 h.2
    · split
      · exact .before prev ‹_›
      · split
        · exact .after prev ‹_› (ihn _)
        · split
          · exact .inside prev (by omega) (by omega) (by omega) (ihl _)
          · split
            · cases hs : coverSplit last (.node t nextlevel next) with
              | none => exact .coverPart prev (by omega) (by omega) (by omega) hs
              | some p => exact .cover prev (by omega) (by omega) (by omega) hs
            · exact .straddle prev (by omega) (by omega) (by omega)

end Insert

/-! ## The siblings that are covered -/

section

variable {lo hi first last : ℤ} {t covered rest : BddTree} {b : Block} {nextlevel next : BddTree}
  {prev : Option ℕ}

theorem coverSplit_some
    (h : coverSplit last (.node b nextlevel next) = some (covered, rest)) :
    ¬ (b.first ≤ last ∧ last < b.last) ∧
      (StartsAt (last + 1) next ∧ covered = .node b nextlevel .null ∧ rest = next ∨
        ¬ StartsAt (last + 1) next ∧ ∃ covered', coverSplit last next = some (covered', rest) ∧
          covered = .node b nextlevel covered') := by
  unfold coverSplit at h
  split at h
  · exact nomatch h
  · rename_i hpart
    refine ⟨hpart, ?_⟩
    cases next with
    | null =>
      simp only [Option.some.injEq, Prod.mk.injEq] at h
      exact Or.inl ⟨trivial, h.1.symm, h.2.symm⟩
    | node b' nextlevel' next' =>
      simp only at h
      split at h
      · simp only [Option.some.injEq, Prod.mk.injEq] at h
        exact Or.inl ⟨by simp only [StartsAt]; omega, h.1.symm, h.2.symm⟩
      · simp only [Option.map_eq_some_iff, Prod.exists, Prod.mk.injEq] at h
        obtain ⟨covered', rest', hs, rfl, rfl⟩ := h
        exact Or.inr ⟨by simp only [StartsAt]; omega, covered', hs, rfl⟩

/-- The loop fails at a block that the range covers in part, before the first one after the range. -/
theorem coverSplit_eq_none (h : b.first ≤ last) :
    coverSplit last (.node b nextlevel next) = none ↔
      ∃ b' ∈ (roots (.node b nextlevel next)).takeWhile (·.first ≤ last), last < b'.last := by
  have hroots : (roots (.node b nextlevel next)).takeWhile (·.first ≤ last) =
      b :: (roots next).takeWhile (·.first ≤ last) :=
    List.takeWhile_cons_of_pos (decide_eq_true h)
  rw [hroots, List.exists_mem_cons_iff]
  by_cases hb : last < b.last
  · refine iff_of_true ?_ (.inl hb)
    unfold coverSplit
    exact if_pos ⟨h, hb⟩
  · rw [or_iff_right hb]
    clear hroots
    induction next generalizing b nextlevel with
    | null =>
      unfold coverSplit
      rw [if_neg fun hpart => hb hpart.2]
      simp [roots]
    | node b₁ nextlevel₁ next₁ _ ih =>
      unfold coverSplit
      rw [if_neg fun hpart => hb hpart.2]
      dsimp only
      by_cases hafter : last < b₁.first
      · have hnil : (roots (.node b₁ nextlevel₁ next₁)).takeWhile (·.first ≤ last) = [] :=
          List.takeWhile_cons_of_neg (by simpa using hafter)
        rw [if_pos hafter, hnil]
        simp
      · have hcons : (roots (.node b₁ nextlevel₁ next₁)).takeWhile (·.first ≤ last) =
            b₁ :: (roots next₁).takeWhile (·.first ≤ last) :=
          List.takeWhile_cons_of_pos (by simpa using hafter)
        rw [if_neg hafter, Option.map_eq_none_iff, hcons, List.exists_mem_cons_iff]
        by_cases hb₁ : last < b₁.last
        · refine iff_of_true ?_ (.inl hb₁)
          unfold coverSplit
          exact if_pos ⟨by omega, hb₁⟩
        · rw [or_iff_right hb₁]
          exact ih (by omega) hb₁

/-- What the range covers lies in it, and the rest after it. -/
theorem coverSplit_placed (hs : coverSplit last t = some (covered, rest)) (h : Placed lo hi t)
    (hf : StartsAt first t) (hl : ¬ StartsAt (last + 1) t) :
    Placed first last covered ∧ Placed (last + 1) hi rest := by
  induction t generalizing lo first covered with
  | null => exact absurd trivial hl
  | node b nextlevel next _ ihn =>
    obtain ⟨hlo, hle, hhi, hkids, hn⟩ := h
    obtain ⟨hpart, ⟨hstop, rfl, rfl⟩ | ⟨hgo, covered', hs', rfl⟩⟩ := coverSplit_some hs
    all_goals
      simp only [StartsAt] at hf hl
    · exact ⟨⟨hf, hle, by omega, hkids, trivial⟩, hn.startsAt hstop⟩
    · obtain ⟨hc, hr⟩ := ihn hs' hn hn.nested.startsAt hgo
      exact ⟨⟨hf, hle, by omega, hkids, hc⟩, hr⟩

theorem coverSplit_linked (hs : coverSplit last t = some (covered, rest)) (h : Linked prev t) :
    Linked prev covered ∧ ∃ prev', Linked prev' rest := by
  induction t generalizing prev covered with
  | null => exact nomatch hs
  | node b nextlevel next _ ihn =>
    obtain ⟨hprev, hkids, hn⟩ := h
    obtain ⟨-, ⟨-, rfl, rfl⟩ | ⟨-, covered', hs', rfl⟩⟩ := coverSplit_some hs
    · exact ⟨⟨hprev, hkids, trivial⟩, _, hn⟩
    · obtain ⟨hc, hr⟩ := ihn hs' hn
      exact ⟨⟨hprev, hkids, hc⟩, hr⟩

theorem coverSplit_blocks (hs : coverSplit last t = some (covered, rest)) :
    blocks t = blocks covered ++ blocks rest := by
  induction t generalizing covered with
  | null => exact nomatch hs
  | node b nextlevel next _ ihn =>
    obtain ⟨-, ⟨-, rfl, rfl⟩ | ⟨-, covered', hs', rfl⟩⟩ := coverSplit_some hs
    · simp [blocks]
    · simp [blocks, ihn hs']

/-- The loop does not mend the order of the siblings. -/
theorem coverSplit_sorted (hs : coverSplit last t = some (covered, rest))
    (hl : ¬ StartsAt (last + 1) t) (hc : Sorted covered) (hr : Sorted rest) : Sorted t := by
  induction t generalizing covered with
  | null => trivial
  | node b nextlevel next _ ihn =>
    simp only [StartsAt] at hl
    obtain ⟨hpart, ⟨hstop, rfl, rfl⟩ | ⟨hgo, covered', hs', rfl⟩⟩ := coverSplit_some hs
    · refine ⟨?_, hc.2.1, hr⟩
      cases rest with
      | null => trivial
      | node b' _ _ =>
        simp only [StartsAt] at hstop ⊢
        omega
    · refine ⟨?_, hc.2.1, ihn hs' hgo hc.2.2⟩
      -- the next sibling is covered too
      cases next with
      | null => trivial
      | node b' _ _ =>
        obtain ⟨-, ⟨-, rfl, -⟩ | ⟨-, _, -, rfl⟩⟩ := coverSplit_some hs'
        · exact hc.1
        · exact hc.1

/-! ## The list after a call -/

theorem placed_setPrev : Placed lo hi (setPrev prev t) ↔ Placed lo hi t := by cases t <;> rfl

theorem sorted_setPrev : Sorted (setPrev prev t) ↔ Sorted t := by cases t <;> rfl

theorem Linked.setPrev {prev' : Option ℕ} (h : Linked prev t) : Linked prev' (setPrev prev' t) := by
  cases t with
  | null => trivial
  | node b nextlevel next => exact ⟨rfl, h.2⟩

/-- A block without its `prev`. -/
def Block.unlink (t : Block) : Block := { t with prev := none }

/-- The blocks, whatever their left siblings. -/
def keys (t : BddTree) : List Block := (blocks t).map Block.unlink

theorem keys_setPrev : keys (setPrev prev t) = keys t := by cases t <;> rfl

theorem keys_node : keys (.node b nextlevel next) = b.unlink :: (keys nextlevel ++ keys next) := by
  simp [keys, blocks]

section Result

variable {var2level : ℕ → ℕ} {addr : ℕ} {fixed id : ℤ} {r : BddTree}

/-- Sorted siblings stay sorted and nested, whatever the call returns. -/
theorem Insert.placed (h : Insert var2level addr first last fixed id t prev r)
    (hle : first ≤ last) (ht : Placed lo hi t) (hlo : lo ≤ first) (hhi : last ≤ hi) :
    Placed lo hi r := by
  induction h generalizing lo hi with
  | empty prev => exact ⟨hlo, hle, hhi, trivial, trivial⟩
  | same prev _ _ => exact ht
  | before prev h =>
    exact ⟨hlo, hle, hhi, trivial, placed_setPrev.mpr (ht.startsAt (show last + 1 ≤ _ by omega))⟩
  | after prev h _ ih =>
    obtain ⟨hlo', hle', hhi', hkids, hn⟩ := ht
    exact ⟨hlo', hle', hhi', hkids, ih hn (by omega) hhi⟩
  | inside prev hf hl _ _ ih =>
    obtain ⟨hlo', hle', hhi', hkids, hn⟩ := ht
    exact ⟨hlo', hle', hhi', ih hkids hf hl, hn⟩
  | cover prev hf hl _ hs =>
    obtain ⟨hc, hr⟩ := coverSplit_placed hs ht hf (by simp only [StartsAt]; omega)
    exact ⟨hlo, hle, hhi, placed_setPrev.mpr hc, placed_setPrev.mpr hr⟩
  | coverPart prev _ _ _ _ => trivial
  | straddle prev _ _ _ => trivial

/-- The links of every list stay consistent, whatever the call returns. -/
theorem Insert.linked (h : Insert var2level addr first last fixed id t prev r)
    (ht : Linked prev t) : Linked prev r := by
  induction h with
  | empty prev => exact ⟨rfl, trivial, trivial⟩
  | same prev _ _ => exact ht
  | before prev _ => exact ⟨ht.1, trivial, ht.setPrev⟩
  | after prev _ _ ih => exact ⟨ht.1, ht.2.1, ih ht.2.2⟩
  | inside prev _ _ _ _ ih => exact ⟨ht.1, ih ht.2.1, ht.2.2⟩
  | cover prev _ _ _ hs =>
    obtain ⟨hc, _, hr⟩ := coverSplit_linked hs ht
    exact ⟨ht.1, hc.setPrev, hr.setPrev⟩
  | coverPart prev _ _ _ _ => trivial
  | straddle prev _ _ _ => trivial

/-- The call fails at the first section of a list only. -/
def Rejects (first last : ℤ) : BddTree → Prop
  | .null => False
  | .node t nextlevel next =>
    t.first < first ∧ first ≤ t.last ∧ t.last < last ∨
      first ≤ t.first ∧ t.first ≤ last ∧ ¬ (t.first ≤ first ∧ last ≤ t.last) ∧
        ∃ b ∈ (roots (.node t nextlevel next)).takeWhile (·.first ≤ last), last < b.last

instance (t : BddTree) : Decidable (Rejects first last t) :=
  match t with
  | .null => inferInstanceAs (Decidable False)
  | .node _ _ _ => inferInstanceAs (Decidable (_ ∨ _))

theorem Insert.eq_null_iff (h : Insert var2level addr first last fixed id t prev r)
    (ht : Nested lo hi t) : r = .null ↔ Rejects first last t := by
  cases h with
  | empty prev => simp [Rejects]
  | coverPart prev hf hl hne hs =>
    exact iff_of_true rfl (Or.inr ⟨hf, hl, hne, (coverSplit_eq_none hl).mp hs⟩)
  | straddle prev hf hm hl => exact iff_of_true rfl (Or.inl ⟨hf, hm, hl⟩)
  | cover prev hf hl hne hs =>
    refine iff_of_false nofun ?_
    rintro (hstraddle | ⟨-, -, -, hpart⟩)
    · omega
    · simp [(coverSplit_eq_none hl).mpr hpart] at hs
  | same prev _ _ =>
    have := ht.2.1
    simp [Rejects]; omega
  | before prev _ =>
    have := ht.2.1
    simp [Rejects]; omega
  | after prev _ _ =>
    have := ht.2.1
    simp [Rejects]; omega
  | inside prev _ _ _ _ =>
    have := ht.2.1
    simp [Rejects]; omega

/-- A range that crosses no block is not rejected. -/
theorem not_rejects (ht : Nested lo hi t) (hc : ∀ b ∈ blocks t, ¬ Crosses first last b) :
    ¬ Rejects first last t := by
  cases t with
  | null => exact fun h => h
  | node b nextlevel next =>
    obtain ⟨-, hle, -, hapart, -, -⟩ := ht
    have hb := hc b List.mem_cons_self
    rintro (⟨hf, hm, hl⟩ | ⟨hf, hl, hne, hs⟩)
    · exact hb (Or.inr ⟨hf, hm, hl⟩)
    · obtain ⟨b', hb', hlast⟩ := hs
      have hfirst : b'.first ≤ last := by simpa using List.mem_takeWhile_imp hb'
      replace hb' := (List.takeWhile_sublist _).subset hb'
      simp only [Crosses, not_or, not_and] at hb
      rcases List.mem_cons.mp hb' with rfl | hb'
      · omega
      · have := hc b' (roots_subset (List.mem_cons_of_mem _ hb'))
        have := hapart b' hb'
        simp only [Crosses] at *
        omega

/-- The call does not mend the first block's place. -/
theorem Insert.startsAt (h : Insert var2level addr first last fixed id t prev r) (hle : first ≤ last)
    (ht : Nested lo hi t) (hc : ∀ b ∈ blocks t, ¬ Crosses first last b) {lo' : ℤ}
    (hlo : lo' ≤ first) (hs : StartsAt lo' r) : StartsAt lo' t := by
  have hnull : r ≠ .null := mt (h.eq_null_iff ht).mp (not_rejects ht hc)
  cases h with
  | empty prev => trivial
  | same prev _ _ => exact hs
  | before prev h => simp only [StartsAt]; omega
  | after prev _ _ => exact hs
  | inside prev _ _ _ _ => exact hs
  | cover prev hf _ _ _ => simp only [StartsAt]; omega
  | coverPart prev _ _ _ _ => exact absurd rfl hnull
  | straddle prev _ _ _ => exact absurd rfl hnull

/-- The call does not mend the order of the siblings. -/
theorem Insert.sorted (h : Insert var2level addr first last fixed id t prev r) (hle : first ≤ last)
    (ht : Nested lo hi t) (hc : ∀ b ∈ blocks t, ¬ Crosses first last b) (hs : Sorted r) :
    Sorted t := by
  have hnull : r ≠ .null := mt (h.eq_null_iff ht).mp (not_rejects ht hc)
  induction h generalizing lo hi with
  | empty prev => trivial
  | same prev _ _ => exact hs
  | before prev _ => exact sorted_setPrev.mp hs.2.2
  | @after b nextlevel next r prev h hr ih =>
    obtain ⟨-, -, -, -, -, hn⟩ := ht
    have hcn : ∀ b ∈ blocks next, ¬ Crosses first last b := fun b hb =>
      hc b (List.mem_cons_of_mem _ (List.mem_append_right _ hb))
    exact ⟨hr.startsAt hle hn hcn (by omega) hs.1, hs.2.1,
      ih hn hcn hs.2.2 (mt (hr.eq_null_iff hn).mp (not_rejects hn hcn))⟩
  | @inside b nextlevel next r prev _ _ _ hr ih =>
    obtain ⟨-, -, -, -, hkids, -⟩ := ht
    have hck : ∀ b ∈ blocks nextlevel, ¬ Crosses first last b := fun b hb =>
      hc b (List.mem_cons_of_mem _ (List.mem_append_left _ hb))
    exact ⟨hs.1, ih hkids hck hs.2.1 (mt (hr.eq_null_iff hkids).mp (not_rejects hkids hck)),
      hs.2.2⟩
  | cover prev _ hl _ hsplit =>
    exact coverSplit_sorted hsplit (by simp only [StartsAt]; omega) (sorted_setPrev.mp hs.2.1)
      (sorted_setPrev.mp hs.2.2)
  | coverPart prev _ _ _ _ => exact absurd rfl hnull
  | straddle prev _ _ _ => exact absurd rfl hnull

/-- The block is the range. -/
def Block.Is (first last : ℤ) (b : Block) : Prop := b.first = first ∧ b.last = last

/-- A range that crosses no block is there already, or it is added to the blocks. -/
theorem Insert.added (h : Insert var2level addr first last fixed id t prev r) (hle : first ≤ last)
    (ht : Placed lo hi t) (hc : ∀ b ∈ blocks t, ¬ Crosses first last b) :
    r = t ∧ (∃ b ∈ blocks t, b.Is first last) ∨
      (∀ b ∈ blocks t, ¬ b.Is first last) ∧
        (keys r).Perm (newBlock var2level addr first last fixed id none :: keys t) := by
  have hnull : r ≠ .null := mt (h.eq_null_iff ht.nested).mp (not_rejects ht.nested hc)
  induction h generalizing lo hi with
  | empty prev => exact Or.inr ⟨by simp [blocks], by simp [keys, blocks, Block.unlink, newBlock]⟩
  | same prev hf hl => exact Or.inl ⟨rfl, _, List.mem_cons_self, hf.symm, hl.symm⟩
  | before prev h =>
    refine Or.inr ⟨fun b' hb' hb => ?_, ?_⟩
    · have := (ht.startsAt (show last + 1 ≤ _ by omega)).mem hb'
      obtain ⟨hf, hl⟩ := hb
      omega
    · rw [keys_node, keys_setPrev]
      exact List.Perm.refl _
  | @after b nextlevel next r prev h hr ih =>
    obtain ⟨-, hle', -, hkids, hn⟩ := ht
    have hcn : ∀ b ∈ blocks next, ¬ Crosses first last b := fun b hb =>
      hc b (List.mem_cons_of_mem _ (List.mem_append_right _ hb))
    rcases ih hn hcn (mt (hr.eq_null_iff hn.nested).mp (not_rejects hn.nested hcn)) with
      ⟨rfl, b', hb', his⟩ | ⟨hnot, hperm⟩
    · exact Or.inl ⟨rfl, b', List.mem_cons_of_mem _ (List.mem_append_right _ hb'), his⟩
    · refine Or.inr ⟨fun b' hb' hb => ?_, ?_⟩
      · simp only [blocks, List.mem_cons, List.mem_append] at hb'
        rcases hb' with rfl | hb' | hb'
        · have := hb.1
          omega
        · have := hkids.mem hb'
          have := hb.1
          omega
        · exact hnot b' hb' hb
      · rw [keys_node, keys_node]
        exact ((hperm.append_left _).trans List.perm_middle).cons _ |>.trans (List.Perm.swap _ _ _)
  | @inside b nextlevel next r prev hf hl hne hr ih =>
    obtain ⟨-, hle', -, hkids, hn⟩ := ht
    have hck : ∀ b ∈ blocks nextlevel, ¬ Crosses first last b := fun b hb =>
      hc b (List.mem_cons_of_mem _ (List.mem_append_left _ hb))
    rcases ih hkids hck (mt (hr.eq_null_iff hkids.nested).mp (not_rejects hkids.nested hck)) with
      ⟨rfl, b', hb', his⟩ | ⟨hnot, hperm⟩
    · exact Or.inl ⟨rfl, b', List.mem_cons_of_mem _ (List.mem_append_left _ hb'), his⟩
    · refine Or.inr ⟨fun b' hb' hb => ?_, ?_⟩
      · simp only [blocks, List.mem_cons, List.mem_append] at hb'
        rcases hb' with rfl | hb' | hb'
        · exact hne ⟨hb.1.symm, hb.2.symm⟩
        · exact hnot b' hb' hb
        · have := hn.mem hb'
          have := hb.1
          omega
      · rw [keys_node, keys_node]
        exact ((hperm.append_right _).cons _).trans (List.Perm.swap _ _ _)
  | @cover b nextlevel next covered rest prev hf hl hne hs =>
    refine Or.inr ⟨fun b' hb' hb => ?_, ?_⟩
    · obtain ⟨-, hle', -, hkids, hn⟩ := ht
      obtain ⟨h₁, h₂⟩ := hb
      simp only [blocks, List.mem_cons, List.mem_append] at hb'
      rcases hb' with rfl | hb' | hb'
      · omega
      · have := hkids.mem hb'
        omega
      · have := hn.mem hb'
        omega
    · rw [keys_node, keys_setPrev, keys_setPrev]
      have hkeys : keys (.node b nextlevel next) = keys covered ++ keys rest := by
        rw [keys, coverSplit_blocks hs, List.map_append]
        rfl
      rw [hkeys]
      exact List.Perm.refl _
  | coverPart prev _ _ _ _ => exact absurd rfl hnull
  | straddle prev _ _ _ => exact absurd rfl hnull

/-- A range that crosses a block is not inserted, and the blocks from the place where that is met
may be lost. -/
theorem Insert.crossing (h : Insert var2level addr first last fixed id t prev r)
    (hle : first ≤ last) (ht : Placed lo hi t) (hc : ∃ b ∈ blocks t, Crosses first last b) :
    (keys r).Sublist (keys t) := by
  induction h generalizing lo hi with
  | empty prev => obtain ⟨b, hb, -⟩ := hc; simp [blocks] at hb
  | same prev _ _ => exact List.Sublist.refl _
  | before prev h =>
    obtain ⟨b, hb, hcross⟩ := hc
    have := (ht.startsAt (show last + 1 ≤ _ by omega)).mem hb
    simp only [Crosses] at hcross
    omega
  | @after b nextlevel next r prev h _ ih =>
    obtain ⟨-, -, -, hkids, hn⟩ := ht
    obtain ⟨b', hb', hcross⟩ := hc
    have hnext : b' ∈ blocks next := by
      simp only [blocks, List.mem_cons, List.mem_append] at hb'
      rcases hb' with rfl | hb' | hb'
      · simp only [Crosses] at hcross
        omega
      · have := hkids.mem hb'
        simp only [Crosses] at hcross
        omega
      · exact hb'
    rw [keys_node, keys_node]
    exact ((ih hn ⟨b', hnext, hcross⟩).append_left _).cons_cons _
  | @inside b nextlevel next r prev hf hl _ _ ih =>
    obtain ⟨-, -, -, hkids, hn⟩ := ht
    obtain ⟨b', hb', hcross⟩ := hc
    have hbelow : b' ∈ blocks nextlevel := by
      simp only [blocks, List.mem_cons, List.mem_append] at hb'
      rcases hb' with rfl | hb' | hb'
      · simp only [Crosses] at hcross
        omega
      · exact hb'
      · have := hn.mem hb'
        simp only [Crosses] at hcross
        omega
    rw [keys_node, keys_node]
    exact ((ih hkids ⟨b', hbelow, hcross⟩).append_right _).cons_cons _
  | @cover b nextlevel next covered rest prev hf hl hne hs =>
    obtain ⟨b', hb', hcross⟩ := hc
    obtain ⟨hcov, hrest⟩ := coverSplit_placed hs ht hf (by simp only [StartsAt]; omega)
    rw [coverSplit_blocks hs, List.mem_append] at hb'
    simp only [Crosses] at hcross
    rcases hb' with hb' | hb'
    · have := hcov.mem hb'
      omega
    · have := hrest.mem hb'
      omega
  | coverPart prev _ _ _ _ => exact List.nil_sublist _
  | straddle prev _ _ _ => exact List.nil_sublist _

end Result

end

end MoToBuddy.Tree
