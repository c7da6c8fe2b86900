import Mathlib.Data.List.Nodup
import Mathlib.Data.List.Basic
import Mathlib.Data.Int.Notation
import Mathlib.Logic.Function.Basic
import Mathlib.Tactic.Common

/-!
# The siblings of a block (`reorder.c`)

The blocks of one level are a doubly linked list of structs. `exchange` is the end of `blockdown`.
-/

namespace MoToBuddy.Reorder

/-- What the reordering reads and writes of a block. The variables are `seq 0`, ..,
`seq (last - first)`. -/
structure BddTree where
  first : ℕ
  last : ℕ
  pos : ℤ
  seq : ℕ → ℕ
  next : Option ℕ
  prev : Option ℕ
  le : first ≤ last

/-- The variables of the block. -/
def BddTree.vars (t : BddTree) : List ℕ := (List.range (t.last - t.first + 1)).map t.seq

@[simp] theorem BddTree.length_vars (t : BddTree) : t.vars.length = t.last - t.first + 1 := by
  simp [BddTree.vars]

theorem BddTree.getElem?_vars (t : BddTree) {n : ℕ} (hn : n < t.vars.length) :
    t.vars[n]? = some (t.seq n) := by
  rw [BddTree.length_vars] at hn
  rw [BddTree.vars, List.getElem?_map, List.getElem?_range hn]
  rfl

theorem BddTree.mem_vars (t : BddTree) {v : ℕ} :
    v ∈ t.vars ↔ ∃ n ≤ t.last - t.first, t.seq n = v := by
  simp [BddTree.vars, Nat.lt_succ_iff]

def modify (tree : ℕ → BddTree) (t : ℕ) (f : BddTree → BddTree) : ℕ → BddTree :=
  fun b => if b = t then f (tree b) else tree b

/-- "Swap left and right data in the order." -/
def exchange (tree : ℕ → BddTree) (left right : ℕ) : ℕ → BddTree :=
  let next := (tree right).next
  let tree := modify tree left fun t => { t with next := next }
  let prev := (tree left).prev
  let tree := modify tree right fun t => { t with prev := prev }
  let tree := modify tree left fun t => { t with prev := some right }
  let tree := modify tree right fun t => { t with next := some left }
  let tree := match (tree right).prev with
    | none => tree
    | some p => modify tree p fun t => { t with next := some right }
  let tree := match (tree left).next with
    | none => tree
    | some n => modify tree n fun t => { t with prev := some left }
  let n := (tree left).pos
  let pos := (tree right).pos
  let tree := modify tree left fun t => { t with pos := pos }
  modify tree right fun t => { t with pos := n }

variable {tree tree' : ℕ → BddTree} {left right : ℕ} {p n : Option ℕ} {A B bs : List ℕ}

/-- The blocks of the list are linked to each other both ways, between `prev` and `next`. -/
def Siblings (tree : ℕ → BddTree) : Option ℕ → List ℕ → Option ℕ → Prop
  | _, [], _ => True
  | prev, b :: bs, next =>
    (tree b).prev = prev ∧ (tree b).next = bs.head?.or next ∧ Siblings tree (some b) bs next

theorem siblings_append :
    Siblings tree p (A ++ B) n ↔
      Siblings tree p A (B.head?.or n) ∧ Siblings tree (A.getLast?.or p) B n := by
  induction A generalizing p with
  | nil => simp [Siblings]
  | cons b A ih =>
    have hlast : (b :: A).getLast?.or p = A.getLast?.or (some b) := by
      cases A with
      | nil => rfl
      | cons c A =>
        rw [List.getLast?_cons_cons]
        simp [List.getLast?_cons]
    rw [List.cons_append, Siblings, Siblings, ih, hlast, List.head?_append, Option.or_assoc]
    simp only [and_assoc]

theorem Siblings.congr (h : Siblings tree p bs n)
    (heq : ∀ b ∈ bs, (tree' b).prev = (tree b).prev ∧ (tree' b).next = (tree b).next) :
    Siblings tree' p bs n := by
  induction bs generalizing p with
  | nil => trivial
  | cons b bs ih =>
    have hb := heq b List.mem_cons_self
    exact ⟨hb.1.trans h.1, hb.2.trans h.2.1,
      ih h.2.2 fun c hc => heq c (List.mem_cons_of_mem _ hc)⟩

/-- The neighbours of a block in the list. -/
theorem Siblings.links (h : Siblings tree none bs none) {k b : ℕ} (hb : bs[k]? = some b) :
    (tree b).prev = (bs.take k).getLast? ∧ (tree b).next = bs[k + 1]? := by
  obtain ⟨hk, heq⟩ := List.getElem?_eq_some_iff.mp hb
  have hsplit : bs = bs.take k ++ b :: bs.drop (k + 1) := by
    rw [← heq, List.getElem_cons_drop, List.take_append_drop]
  rw [hsplit] at h
  have hlinks := (siblings_append.mp h).2
  rw [Siblings] at hlinks
  exact ⟨by simpa using hlinks.1, by simpa [List.head?_drop] using hlinks.2.1⟩

/-- The structs after the exchange. -/
theorem exchange_apply (hne : left ≠ right) (hp : (tree left).prev = p) (hn : (tree right).next = n)
    (hpl : p ≠ some left) (hpr : p ≠ some right) (hnl : n ≠ some left) (hnr : n ≠ some right)
    (hpn : ∀ t, p = some t → n ≠ some t) (t : ℕ) :
    exchange tree left right t =
      if t = left then { tree t with next := n, prev := some right, pos := (tree right).pos }
      else if t = right then { tree t with prev := p, next := some left, pos := (tree left).pos }
      else if some t = p then { tree t with next := some right }
      else if some t = n then { tree t with prev := some left }
      else tree t := by
  have hne' := hne.symm
  -- either neighbour may be missing
  cases p with
  | none =>
    cases n with
    | none =>
      simp [exchange, modify, hp, hn, hne, hne']
      split_ifs <;> first | rfl | omega
    | some n =>
      have hnl : left ≠ n := fun heq => hnl (by rw [heq])
      have hnr : right ≠ n := fun heq => hnr (by rw [heq])
      simp [exchange, modify, hp, hn, hne, hne', hnl, hnr]
      split_ifs <;> first | rfl | omega
  | some p =>
    have hpl : left ≠ p := fun heq => hpl (by rw [heq])
    have hpr : right ≠ p := fun heq => hpr (by rw [heq])
    cases n with
    | none =>
      simp [exchange, modify, hp, hn, hne, hne', hpl, hpr]
      split_ifs <;> first | rfl | omega
    | some n =>
      have hnl : left ≠ n := fun heq => hnl (by rw [heq])
      have hnr : right ≠ n := fun heq => hnr (by rw [heq])
      have hpn : p ≠ n := fun heq => hpn p rfl (by rw [heq])
      simp [exchange, modify, hp, hn, hne, hne', hpl, hpr, hnl, hnr]
      split_ifs <;> first | rfl | omega

section Exchange

variable (h : Siblings tree none (A ++ left :: right :: B) none)
  (hnd : (A ++ left :: right :: B).Nodup)
include h hnd

/-- The exchange of neighbours, with the structs around them. -/
theorem Siblings.exchange_apply (t : ℕ) :
    exchange tree left right t =
      if t = left then { tree t with next := B.head?, prev := some right, pos := (tree right).pos }
      else if t = right then
        { tree t with prev := A.getLast?, next := some left, pos := (tree left).pos }
      else if some t = A.getLast? then { tree t with next := some right }
      else if some t = B.head? then { tree t with prev := some left }
      else tree t := by
  have hlinks := (siblings_append.mp h).2
  obtain ⟨-, hlr, hAB⟩ := List.nodup_append.mp hnd
  have hlr := List.nodup_cons.mp hlr
  have hrB := (List.nodup_cons.mp hlr.2).1
  have hA : ∀ x, A.getLast? = some x → x ≠ left ∧ x ≠ right ∧ x ∉ B := fun x hx => by
    have hmem := List.mem_of_getLast? hx
    exact ⟨hAB x hmem left (by simp), hAB x hmem right (by simp),
      fun hB => hAB x hmem x (by simp [hB]) rfl⟩
  have hB : ∀ y, B.head? = some y → y ≠ left ∧ y ≠ right := fun y hy => by
    have hmem := List.mem_of_head? hy
    exact ⟨fun heq => hlr.1 (by simp [← heq, hmem]), fun heq => hrB (heq ▸ hmem)⟩
  refine Reorder.exchange_apply (fun heq => hlr.1 (by simp [heq])) ?_ ?_
    (fun heq => (hA _ heq).1 rfl) (fun heq => (hA _ heq).2.1 rfl) (fun heq => (hB _ heq).1 rfl)
    (fun heq => (hB _ heq).2 rfl) (fun x hx hy => (hA x hx).2.2 (List.mem_of_head? hy)) t
  · simpa using hlinks.1
  · simpa using hlinks.2.2.2.1

/-- The range and the sequence of a block stay. -/
theorem exchange_kept (t : ℕ) : (exchange tree left right t).first = (tree t).first ∧
    (exchange tree left right t).last = (tree t).last ∧
    (exchange tree left right t).seq = (tree t).seq := by
  rw [h.exchange_apply hnd t]
  split_ifs <;> exact ⟨rfl, rfl, rfl⟩

/-- The links are consistent again, with the two exchanged. -/
theorem exchange_siblings :
    Siblings (exchange tree left right) none (A ++ right :: left :: B) none := by
  have hx := h.exchange_apply hnd
  obtain ⟨hA, hlr⟩ := siblings_append.mp h
  obtain ⟨hndA, hndlr, hAB⟩ := List.nodup_append.mp hnd
  have hl := List.nodup_cons.mp hndlr
  have hr := List.nodup_cons.mp hl.2
  have hne : left ≠ right := fun heq => hl.1 (by simp [heq])
  refine siblings_append.mpr ⟨?_, ?_, ?_, ?_, ?_, ?_⟩
  · -- before the two only the `next` of the last one changes
    rcases List.eq_nil_or_concat A with hnil | ⟨A', x, hcat⟩
    · subst hnil
      trivial
    · rw [List.concat_eq_append] at hcat
      subst hcat
      have hA := siblings_append.mp hA
      have hndA := List.nodup_append.mp hndA
      have hkeep : ∀ t ∈ A' ++ [x], t ≠ left ∧ t ≠ right ∧ t ∉ B := fun t ht =>
        ⟨hAB t ht left (by simp), hAB t ht right (by simp), fun hB => hAB t ht t (by simp [hB]) rfl⟩
      have hnB : ∀ t ∈ A' ++ [x], some t ≠ B.head? := fun t ht heq =>
        (hkeep t ht).2.2 (List.mem_of_head? heq.symm)
      refine siblings_append.mpr ⟨hA.1.congr fun t ht => ?_, ?_, ?_, trivial⟩
      · have htm : t ∈ A' ++ [x] := List.mem_append_left _ ht
        have htx : t ≠ x := fun heq => hndA.2.2 t ht x (by simp) heq
        rw [hx t, if_neg (hkeep t htm).1, if_neg (hkeep t htm).2.1, if_neg (by simpa using htx),
          if_neg (hnB t htm)]
        exact ⟨rfl, rfl⟩
      · have hxm : x ∈ A' ++ [x] := by simp
        rw [hx x, if_neg (hkeep x hxm).1, if_neg (hkeep x hxm).2.1, if_pos (by simp)]
        exact hA.2.1
      · have hxm : x ∈ A' ++ [x] := by simp
        rw [hx x, if_neg (hkeep x hxm).1, if_neg (hkeep x hxm).2.1, if_pos (by simp)]
        rfl
  · rw [hx right, if_neg hne.symm, if_pos rfl]
    simp
  · rw [hx right, if_neg hne.symm, if_pos rfl]
    rfl
  · rw [hx left, if_pos rfl]
  · rw [hx left, if_pos rfl]
    simp
  · -- behind the two only the `prev` of the first one changes
    have hB := hlr.2.2.2.2
    cases B with
    | nil => trivial
    | cons y B =>
      have hy : y ≠ left ∧ y ≠ right := by
        constructor
        · exact fun heq => hl.1 (by simp [heq])
        · exact fun heq => hr.1 (by simp [heq])
      have hlast : ∀ t ∈ y :: B, some t ≠ A.getLast? := fun t ht heq =>
        hAB t (List.mem_of_getLast? heq.symm) t (by simp at ht ⊢; simp [ht]) rfl
      refine ⟨?_, ?_, hB.2.2.congr fun t ht => ?_⟩
      · rw [hx y, if_neg hy.1, if_neg hy.2, if_neg (hlast y (by simp)),
          if_pos (List.head?_cons).symm]
      · rw [hx y, if_neg hy.1, if_neg hy.2, if_neg (hlast y (by simp)),
          if_pos (List.head?_cons).symm]
        exact hB.2.1
      · have htl : t ≠ left := fun heq => hl.1 (by simp [← heq, ht])
        have htr : t ≠ right := fun heq => hr.1 (by simp [← heq, ht])
        have hty : t ≠ y := fun heq => (List.nodup_cons.mp hr.2).1 (heq ▸ ht)
        rw [hx t, if_neg htl, if_neg htr, if_neg (hlast t (by simp [ht])),
          if_neg (by simpa using hty)]
        exact ⟨rfl, rfl⟩

/-- The positions stay where they were in the list. -/
theorem exchange_pos : (A ++ right :: left :: B).map (fun t => (exchange tree left right t).pos) =
    (A ++ left :: right :: B).map fun t => (tree t).pos := by
  have hx := h.exchange_apply hnd
  obtain ⟨-, hndlr, hAB⟩ := List.nodup_append.mp hnd
  have hl := List.nodup_cons.mp hndlr
  have hr := List.nodup_cons.mp hl.2
  have hne : left ≠ right := fun heq => hl.1 (by simp [heq])
  have hpos : ∀ t, t ≠ left → t ≠ right → (exchange tree left right t).pos = (tree t).pos := by
    intro t htl htr
    rw [hx t, if_neg htl, if_neg htr]
    split_ifs <;> rfl
  rw [List.map_append, List.map_append, List.map_cons, List.map_cons, List.map_cons, List.map_cons]
  congr 1
  · refine List.map_congr_left fun t ht => hpos t ?_ ?_
    · exact hAB t ht left (by simp)
    · exact hAB t ht right (by simp)
  · rw [hx left, if_pos rfl, hx right, if_neg hne.symm, if_pos rfl]
    congr 2
    refine List.map_congr_left fun t ht => hpos t ?_ ?_
    · exact fun heq => hl.1 (by simp [← heq, ht])
    · exact fun heq => hr.1 (heq ▸ ht)

end Exchange

end MoToBuddy.Reorder
