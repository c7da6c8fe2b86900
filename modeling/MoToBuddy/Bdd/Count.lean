import Mathlib.Algebra.BigOperators.Group.Finset.Piecewise
import MoToBuddy.Bdd.Plain
import MoToBuddy.Bdd.Sections
import MoToBuddy.Bdd.Unique
import MoToBuddy.Lib.Walk

/-!
# Counting nodes

`bdd_nodecount`, `bdd_anodecount` and `mtbdd_leaf_count`. The walks of `bdd_markcount` and
`bdd_unmark` do not end at a terminal: they go on with its fields, which are a type and a value.

* `Closed`: these fields are constants or nodes of the diagram.
* `counts_iff`: that is when the counts are exact and the walks stay in the diagram.
-/

namespace MoToBuddy.Bdd

open Marking

variable {P : Type*} {D : MtbddDomain P} {isPrime : ℕ → Bool} {s : BddState P}

namespace Counting

/-! ## The walks -/

/-- A field of a node as the code reads it: a node number, or a word of a terminal as an `int`. -/
def fieldInt (level field : ℕ) : ℤ :=
  if level = maxlevel then
    let word : ℕ := field % 2 ^ 32
    if word < 2 ^ 31 then word else (word : ℤ) - 2 ^ 32
  else field

/-- `LOW` and `HIGH`. -/
def lowInt (s : BddState P) (n : ℕ) : ℤ := fieldInt (s.level n) (s.low n)
def highInt (s : BddState P) (n : ℕ) : ℤ := fieldInt (s.level n) (s.high n)

/-- The marks, the counter, and the slots of the table that were read. -/
structure Counter where
  marks : ℕ → Bool
  cou : ℕ
  visits : List ℕ

def Counter.read (w : Counter) (n : ℕ) : Counter := { w with visits := n :: w.visits }

/-- `SETMARK`. -/
def Counter.setmark (w : Counter) (n : ℕ) : Counter :=
  { w with marks := Function.update w.marks n true }

/-- `UNMARK`. -/
def Counter.unmark (w : Counter) (n : ℕ) : Counter :=
  { w with marks := Function.update w.marks n false }

def Counter.add (w : Counter) (k : ℕ) : Counter := { w with cou := w.cou + k }

/-- `bdd_markcount`; there is no result for a number outside the table. -/
def bddMarkcount (s : BddState P) : ℕ → ℤ → Counter → Option Counter
  | 0, _, _ => none
  | fuel + 1, i, w =>
    if i < 2 then some w
    else if i ≥ s.bddnodesize then none
    else
      let n := i.toNat
      let w := w.read n
      if w.marks n || s.isFree n then some w
      else do
        let w ← bddMarkcount s fuel (lowInt s n) ((w.setmark n).add 1)
        bddMarkcount s fuel (highInt s n) w

/-- `bdd_unmark`. -/
def bddUnmark (s : BddState P) : ℕ → ℤ → Counter → Option Counter
  | 0, _, _ => none
  | fuel + 1, i, w =>
    if i < 2 then some w
    else if i ≥ s.bddnodesize then none
    else
      let n := i.toNat
      let w := w.read n
      if !w.marks n || s.isFree n then some w
      else do
        let w ← bddUnmark s fuel (lowInt s n) (w.unmark n)
        bddUnmark s fuel (highInt s n) w

/-- `mtbdd_leaf_count_fn`. -/
def mtbddLeafCountFn (s : BddState P) : ℕ → ℤ → Counter → Option Counter
  | 0, _, _ => none
  | fuel + 1, i, w =>
    if i < 2 then some w
    else if i ≥ s.bddnodesize then none
    else
      let n := i.toNat
      let w := w.read n
      if w.marks n then some w
      else
        let w := w.setmark n
        if s.level n = maxlevel ∧ s.isFree n = false then some (w.add 1)
        else do
          let w ← mtbddLeafCountFn s fuel (lowInt s n) w
          mtbddLeafCountFn s fuel (highInt s n) w

/-- The marks of the table, and nothing counted. -/
def Counter.start (s : BddState P) : Counter := ⟨s.marks, 0, []⟩

/-- Deep enough for every walk over nodes. -/
def walkFuel (s : BddState P) : ℕ := s.bddnodesize + 1

/-- `bdd_nodecount`: the count or an error code, and the table afterwards. -/
def bddNodecount (s : BddState P) (r : ℕ) : Option (ℤ × Counter) :=
  if r ≥ s.bddnodesize ∨ r ≥ 2 ∧ s.isFree r = true then
    some (errorCode .illbdd, .start s)
  else do
    let w ← bddMarkcount s (walkFuel s) r (.start s)
    let w' ← bddUnmark s (walkFuel s) r w
    return (w.cou, w')

def bddAnodecount (s : BddState P) (r : List ℕ) : Option (ℤ × Counter) := do
  let w ← r.foldlM (fun w n => bddMarkcount s (walkFuel s) (n : ℕ) w) (.start s)
  let w' ← r.foldlM (fun w n => bddUnmark s (walkFuel s) (n : ℕ) w) w
  return (w.cou, w')

def mtbddLeafCount (s : BddState P) (r : ℕ) : Option (ℤ × Counter) := do
  let w ← mtbddLeafCountFn s (walkFuel s) r (.start s)
  let w' ← bddUnmark s (walkFuel s) r w
  return (w.cou, w')

/-! ## The walks as walks of a graph -/

/-- The fields that a walk follows. -/
def fields (s : BddState P) (n : ℕ) : List ℤ := [lowInt s n, highInt s n]

/-- What `mtbdd_leaf_count_fn` follows. -/
def leafFields (s : BddState P) (n : ℕ) : List ℤ :=
  if s.level n = maxlevel ∧ s.isFree n = false then [] else fields s n

/-- A walk is done with the nodes that are marked, or with those that are not. -/
def Counter.toWalk (flag : Bool) (w : Counter) : Walk :=
  ⟨fun n => w.marks n == flag, w.cou, w.visits⟩

theorem setmark_toWalk (w : Counter) (n k : ℕ) :
    ((w.setmark n).add k).toWalk true = (w.toWalk true).mark n k := by
  simp only [Counter.toWalk, Counter.setmark, Counter.add, Walk.mark]
  congr 1
  funext m
  simp only [Function.update_apply]
  split <;> rfl

theorem unmark_toWalk (w : Counter) (n : ℕ) :
    (w.unmark n).toWalk false = (w.toWalk false).mark n 0 := by
  simp only [Counter.toWalk, Counter.unmark, Walk.mark, Nat.add_zero]
  congr 1
  funext m
  simp only [Function.update_apply]
  split <;> rfl

/-- Two walks, one after the other. -/
theorem map_bind_toWalk {flag : Bool} {x : Option Counter} {f : Counter → Option Counter}
    {y : Option Walk} {g : Walk → Option Walk} (hx : x.map (Counter.toWalk flag) = y)
    (hf : ∀ w, (f w).map (Counter.toWalk flag) = g (w.toWalk flag)) :
    (x.bind f).map (Counter.toWalk flag) = y.bind g := by
  subst hx
  cases x with
  | none => rfl
  | some w => exact hf w

theorem bddMarkcount_walk (s : BddState P) (fuel : ℕ) (i : ℤ) (w : Counter) :
    (bddMarkcount s fuel i w).map (Counter.toWalk true) =
      walk 2 s.bddnodesize s.isFree (fields s) (fun _ => 1) fuel i (w.toWalk true) := by
  induction fuel generalizing i w with
  | zero => rfl
  | succ fuel ih =>
    rw [bddMarkcount, walk]
    by_cases hi : i < 2
    · simp [hi]
    · by_cases hsz : i ≥ s.bddnodesize
      · simp [hi, hsz]
      · have hdone : ((w.read i.toNat).marks i.toNat || s.isFree i.toNat) =
            ((w.toWalk true).done i.toNat || s.isFree i.toNat) := by
          simp [Counter.toWalk, Counter.read]
        simp only [hi, hsz, if_false, hdone, Nat.cast_ofNat]
        split
        · rfl
        · have hmark : (((w.read i.toNat).setmark i.toNat).add 1).toWalk true =
              ((w.toWalk true).visit i.toNat).mark i.toNat 1 := setmark_toWalk _ _ 1
          rw [← hmark]
          simp only [fields, List.foldlM_cons, List.foldlM_nil, bind_pure]
          exact map_bind_toWalk (ih _ _) fun w => ih _ w

theorem bddUnmark_walk (s : BddState P) (fuel : ℕ) (i : ℤ) (w : Counter) :
    (bddUnmark s fuel i w).map (Counter.toWalk false) =
      walk 2 s.bddnodesize s.isFree (fields s) (fun _ => 0) fuel i (w.toWalk false) := by
  induction fuel generalizing i w with
  | zero => rfl
  | succ fuel ih =>
    rw [bddUnmark, walk]
    by_cases hi : i < 2
    · simp [hi]
    · by_cases hsz : i ≥ s.bddnodesize
      · simp [hi, hsz]
      · have hdone : (!(w.read i.toNat).marks i.toNat || s.isFree i.toNat) =
            ((w.toWalk false).done i.toNat || s.isFree i.toNat) := by
          simp [Counter.toWalk, Counter.read]
        simp only [hi, hsz, if_false, hdone, Nat.cast_ofNat]
        split
        · rfl
        · have hmark : ((w.read i.toNat).unmark i.toNat).toWalk false =
              ((w.toWalk false).visit i.toNat).mark i.toNat 0 := unmark_toWalk _ _
          rw [← hmark]
          simp only [fields, List.foldlM_cons, List.foldlM_nil, bind_pure]
          exact map_bind_toWalk (ih _ _) fun w => ih _ w

/-- The weight of a leaf. -/
def leafWeight (s : BddState P) (n : ℕ) : ℕ :=
  if s.level n = maxlevel ∧ s.isFree n = false then 1 else 0

theorem mtbddLeafCountFn_walk (s : BddState P) (fuel : ℕ) (i : ℤ) (w : Counter) :
    (mtbddLeafCountFn s fuel i w).map (Counter.toWalk true) =
      walk 2 s.bddnodesize (fun _ => false) (leafFields s) (leafWeight s) fuel i
        (w.toWalk true) := by
  induction fuel generalizing i w with
  | zero => rfl
  | succ fuel ih =>
    rw [mtbddLeafCountFn, walk]
    by_cases hi : i < 2
    · simp [hi]
    · by_cases hsz : i ≥ s.bddnodesize
      · simp [hi, hsz]
      · have hdone : (w.read i.toNat).marks i.toNat =
            ((w.toWalk true).done i.toNat || false) := by
          simp [Counter.toWalk, Counter.read]
        simp only [hi, hsz, if_false, hdone, Nat.cast_ofNat]
        split
        · rfl
        · by_cases hleaf : s.level i.toNat = maxlevel ∧ s.isFree i.toNat = false
          · have hmark : (((w.read i.toNat).setmark i.toNat).add 1).toWalk true =
                ((w.toWalk true).visit i.toNat).mark i.toNat 1 := setmark_toWalk _ _ 1
            simp only [leafFields, leafWeight, hleaf, and_self, if_true, List.foldlM_nil,
              Option.map_some, hmark]
            rfl
          · have hmark : ((w.read i.toNat).setmark i.toNat).toWalk true =
                ((w.toWalk true).visit i.toNat).mark i.toNat 0 := setmark_toWalk _ _ 0
            simp only [leafFields, leafWeight, hleaf, if_false, fields, List.foldlM_cons,
              List.foldlM_nil, bind_pure, ← hmark]
            exact map_bind_toWalk (ih _ _) fun w => ih _ w

/-! ## What is to be counted -/

/-- The nodes of the diagrams `r`, without the constants. -/
def InCone (s : BddState P) (r : List ℕ) (n : ℕ) : Prop := ∃ m ∈ r, Reach s.live s.succ m n

/-- The nodes of a table that form diagrams: the invariant of the table, and no dangling child. -/
structure Diagrams (D : MtbddDomain P) (isPrime : ℕ → Bool) (s : BddState P) : Prop where
  table : ∃ flight, TableInv D isPrime flight s
  child : ∀ n, s.live n = true → ∀ m ∈ s.succ n, s.IsNode m

theorem Diagrams.of_good {T : Theory P} (h : Good T s) : Diagrams T.D T.isPrime s := by
  obtain ⟨flight, htable, -⟩ := h.inv.table
  exact ⟨⟨flight, htable⟩, h.inv.graph.child⟩

open Classical in
/-- The number of nodes of the diagrams. -/
noncomputable def nodesIn (s : BddState P) (r : List ℕ) : ℕ :=
  ((Finset.range s.bddnodesize).filter (InCone s r)).card

open Classical in
/-- The number of terminals of the diagrams. -/
noncomputable def leavesIn (s : BddState P) (r : List ℕ) : ℕ :=
  ((Finset.range s.bddnodesize).filter fun n => InCone s r n ∧ s.level n = maxlevel).card

/-- The call returns the number, has read slots of the diagrams only, and leaves no mark. -/
def Counts (s : BddState P) (r : List ℕ) (number : ℕ) (call : Option (ℤ × Counter)) : Prop :=
  ∃ w, call = some ((number : ℤ), w) ∧
    (∀ v ∈ w.visits, v < s.bddnodesize ∧ InCone s r v) ∧ ∀ n, w.marks n = false

/-- The fields of the terminals are constants or nodes of the diagrams, as numbers. -/
def Closed (s : BddState P) (r : List ℕ) : Prop :=
  ∀ n, InCone s r n → s.level n = maxlevel → ∀ i ∈ fields s n, i < 2 ∨ InCone s r i.toNat

section Cone

variable {r : List ℕ} {n : ℕ}

theorem InCone.live (h : InCone s r n) : s.live n = true := by
  obtain ⟨_, _, hm⟩ := h
  exact hm.live_right

theorem InCone.step (h : InCone s r n) {m : ℕ} (hm : m ∈ s.succ n) (hl : s.live m = true) :
    InCone s r m := by
  obtain ⟨k, hk, hn⟩ := h
  exact ⟨k, hk, hn.step hm hl⟩

variable (h : Diagrams D isPrime s)
include h

theorem InCone.lt (hn : InCone s r n) : n < s.bddnodesize := by
  obtain ⟨flight, htable⟩ := h.table
  exact htable.live_lt hn.live

/-- The fields of a decision node are its children. -/
theorem fields_closed (hn : InCone s r n) (hlevel : s.level n ≠ maxlevel) :
    ∀ i ∈ fields s n, i < 2 ∨ InCone s r i.toNat := by
  obtain ⟨-, low, hlow⟩ := BddState.live_iff.mp hn.live
  have hsucc : s.succ n = [s.low n, s.high n] := by
    have hlow' : (s.bddnodes n).low = some low := hlow
    have hlevel' : ¬ (s.key n).level = maxlevel := hlevel
    simp only [BddState.succ, hlow, hlevel', if_false, BddState.low, hlow', Option.getD_some]
    rfl
  intro i hi
  have hmem : ∃ m ∈ s.succ n, i = (m : ℤ) := by
    simp only [fields, lowInt, highInt, fieldInt, hlevel, if_false, List.mem_cons,
      List.not_mem_nil, or_false] at hi
    rw [hsucc]
    rcases hi with rfl | rfl
    · exact ⟨_, List.mem_cons_self, rfl⟩
    · exact ⟨_, List.mem_cons_of_mem _ List.mem_cons_self, rfl⟩
  obtain ⟨m, hm, rfl⟩ := hmem
  rcases h.child n hn.live m hm with hlt | hl
  · exact Or.inl (by exact_mod_cast hlt)
  · exact Or.inr (hn.step hm hl)

theorem closedSet_fields (hc : Closed s r) :
    ClosedSet 2 s.bddnodesize (fields s) (InCone s r) := by
  refine ⟨fun n hn => hn.lt h, fun n hn => ?_⟩
  by_cases hlevel : s.level n = maxlevel
  · exact hc n hn hlevel
  · exact fields_closed h hn hlevel

theorem closedSet_leafFields : ClosedSet 2 s.bddnodesize (leafFields s) (InCone s r) := by
  refine ⟨fun n hn => hn.lt h, fun n hn => ?_⟩
  unfold leafFields
  split
  · exact fun i hi => absurd hi List.not_mem_nil
  · rename_i hleaf
    obtain ⟨h2, -⟩ := BddState.live_iff.mp hn.live
    have hfree : s.isFree n = false := by rw [isFree_eq h2, hn.live]; rfl
    exact fields_closed h hn fun hlevel => hleaf ⟨hlevel, hfree⟩

end Cone

/-- The children of a node are among its fields. -/
theorem succ_subset_leafFields {n m : ℕ} (hm : m ∈ s.succ n) :
    m ∈ (leafFields s n).map Int.toNat := by
  unfold BddState.succ at hm
  split at hm
  · exact absurd hm List.not_mem_nil
  · rename_i low hlow
    split at hm
    · exact absurd hm List.not_mem_nil
    · rename_i hlevel
      have hlevel' : ¬ s.level n = maxlevel := hlevel
      have hlow' : s.low n = low := by
        show (s.key n).low.getD 0 = low
        rw [hlow]
        rfl
      have hhigh : s.high n = (s.key n).high := rfl
      simpa [leafFields, fields, lowInt, highInt, fieldInt, hlevel', hlow', hhigh] using hm

theorem succ_subset_fields {n m : ℕ} (hm : m ∈ s.succ n) : m ∈ (fields s n).map Int.toNat := by
  have hleaf := succ_subset_leafFields hm
  unfold leafFields at hleaf
  split at hleaf
  · exact absurd hleaf List.not_mem_nil
  · exact hleaf

/-- Following the fields in a closed set reaches the nodes of the diagrams. -/
theorem reach_iff_inCone {next : ℕ → List ℤ} {r : List ℕ}
    (hC : ClosedSet 2 s.bddnodesize next (InCone s r))
    (hsub : ∀ n m, m ∈ s.succ n → m ∈ (next n).map Int.toNat) (n : ℕ) :
    (∃ m ∈ r, Reach s.live (fun n => (next n).map Int.toNat) m n) ↔ InCone s r n := by
  constructor
  · rintro ⟨m, hm, hreach⟩
    induction hreach with
    | refl hl => exact ⟨m, hm, .refl hl⟩
    | @step n k _ hk hl ih =>
      obtain ⟨i, hi, rfl⟩ := List.mem_map.mp hk
      rcases hC.next n ih i hi with hlt | hin
      · obtain ⟨h2, -⟩ := BddState.live_iff.mp hl
        exact absurd h2 (by have : i < 2 := hlt; omega)
      · exact hin
  · rintro ⟨m, hm, hreach⟩
    refine ⟨m, hm, ?_⟩
    induction hreach with
    | refl hl => exact .refl hl
    | step _ hk hl ih => exact ih.step (hsub _ _ hk) hl

/-- The walks from several roots, one after the other. -/
theorem foldlM_toWalk (flag : Bool) {f : ℕ → Counter → Option Counter}
    {g : Walk → ℤ → Option Walk}
    (hf : ∀ (n : ℕ) w, (f n w).map (Counter.toWalk flag) = g (w.toWalk flag) n) (r : List ℕ)
    (w : Counter) : (r.foldlM (fun w n => f n w) w).map (Counter.toWalk flag) =
      (r.map fun n : ℕ => (n : ℤ)).foldlM g (w.toWalk flag) := by
  induction r generalizing w with
  | nil => rfl
  | cons n r ih =>
    rw [List.foldlM_cons, List.map_cons, List.foldlM_cons]
    exact map_bind_toWalk (hf n w) ih

/-! ## The walks from the roots -/

theorem roots_closed {r : List ℕ} (hr : ∀ n ∈ r, s.IsNode n) :
    ∀ i ∈ r.map fun n : ℕ => (n : ℤ), i < (2 : ℕ) ∨ InCone s r i.toNat := by
  intro i hi
  obtain ⟨n, hn, rfl⟩ := List.mem_map.mp hi
  rcases hr n hn with hlt | hl
  · exact Or.inl (by exact_mod_cast hlt)
  · exact Or.inr ⟨n, hn, .refl hl⟩

/-- A walk along the fields that returns has read those of every node of the diagrams. -/
theorem walkAll_reads {r : List ℕ} {weight : ℕ → ℕ} {fuel : ℕ} {w w' : Walk}
    (hw' : walkAll 2 s.bddnodesize s.isFree (fields s) weight fuel
      (r.map fun n : ℕ => (n : ℤ)) w = some w') :
    Walked s.bddnodesize (fields s) weight 2 s.live (fun _ => True) (r.map fun n : ℕ => (n : ℤ))
      w w' :=
  walkAll_spec (by decide) (fun n hn => (BddState.live_iff.mp hn).1)
    (fun n _ h2 _ => isFree_eq h2) (fun _ _ _ _ _ => Or.inr trivial) fuel _
    (fun _ _ => Or.inr trivial) w w' hw'

theorem isFree_inCone {r : List ℕ} {n : ℕ} (hn : InCone s r n) : s.isFree n = false := by
  obtain ⟨h2, -⟩ := BddState.live_iff.mp hn.live
  rw [isFree_eq h2, hn.live]
  rfl

section Phases

variable {r : List ℕ} (hr : ∀ n ∈ r, s.IsNode n)
include hr

open Classical in
/-- A walk that stays in the diagrams is done with their nodes. -/
theorem walkAll_cone (weight : ℕ → ℕ) {next : ℕ → List ℤ} {skip : ℕ → Bool}
    (hC : ClosedSet 2 s.bddnodesize next (InCone s r))
    (hsub : ∀ n m, m ∈ s.succ n → m ∈ (next n).map Int.toNat)
    (hskip : ∀ n, InCone s r n → skip n = false) (w : Walk) (hw : ∀ n, w.done n = false) :
    ∃ w', walkAll 2 s.bddnodesize skip next weight (walkFuel s) (r.map fun n : ℕ => (n : ℤ)) w =
        some w' ∧ (∀ n, w'.done n = true ↔ InCone s r n) ∧
      w'.sum = w.sum + ∑ n ∈ (Finset.range s.bddnodesize).filter (InCone s r), weight n ∧
      ∀ v ∈ w'.visits, v ∈ w.visits ∨ InCone s r v := by
  have hskip' : ∀ n, InCone s r n → skip n = !s.live n := fun n hn => by
    rw [hskip n hn, hn.live]
    rfl
  obtain ⟨w', hw'⟩ : ∃ w', walkAll 2 s.bddnodesize skip next weight (walkFuel s)
      (r.map fun n : ℕ => (n : ℤ)) w = some w' :=
    walkAll_returns hC (fun n hn _ => hskip' n hn) _ _ (roots_closed hr) w
      (Nat.lt_succ_of_le (unmarked_le _ _))
  have hspec := walkAll_spec (by decide) (fun n hn => (BddState.live_iff.mp hn).1)
    (fun n hn _ _ => hskip' n hn) (fun n hn _ => hC.next n hn) _ _ (roots_closed hr) w w' hw'
  have hroots : (r.map fun n : ℕ => (n : ℤ)).map Int.toNat = r := by simp [Function.comp_def]
  have hdone (n : ℕ) : w'.done n = true ↔ InCone s r n := by
    rw [hspec.marks.iff_reach hw, hroots]
    exact reach_iff_inCone hC hsub n
  refine ⟨w', hw', hdone, ?_, hspec.only⟩
  have hsum := hspec.sum
  have hnone : total s.bddnodesize weight w.done = 0 := by simp [total, hw]
  have hall : total s.bddnodesize weight w'.done =
      ∑ n ∈ (Finset.range s.bddnodesize).filter (InCone s r), weight n := by
    rw [total, Finset.filter_congr fun n _ => hdone n]
  omega

variable (h : Diagrams D isPrime s)
include h

/-- `bdd_markcount` from the roots, if the fields of terminals stay in the diagrams. -/
theorem markcount_closed (hc : Closed s r) :
    ∃ w, r.foldlM (fun w n => bddMarkcount s (walkFuel s) (n : ℕ) w) (.start s) = some w ∧
      (∀ n, w.marks n = true ↔ InCone s r n) ∧ w.cou = nodesIn s r ∧
      ∀ v ∈ w.visits, InCone s r v := by
  obtain ⟨flight, htable⟩ := h.table
  obtain ⟨w', hw', hdone, hsum, hvisits⟩ := walkAll_cone hr (fun _ => 1)
    (closedSet_fields h hc) (fun _ _ hm => succ_subset_fields hm)
    (fun n hn => isFree_inCone hn) ((Counter.start s).toWalk true)
    (fun n => by simp [Counter.toWalk, Counter.start, BddState.marks, htable.mark])
  rw [walkAll, ← foldlM_toWalk true (fun n w => bddMarkcount_walk s (walkFuel s) n w) r
    (.start s), Option.map_eq_some_iff] at hw'
  obtain ⟨w, hw, rfl⟩ := hw'
  refine ⟨w, hw, fun n => ?_, ?_, fun v hv => ?_⟩
  · rw [← hdone n]
    simp [Counter.toWalk]
  · simpa [Counter.toWalk, Counter.start, nodesIn] using hsum
  · exact (hvisits v hv).resolve_left List.not_mem_nil

/-- `mtbdd_leaf_count_fn` from the roots. -/
theorem leafCountFn_inCone :
    ∃ w, r.foldlM (fun w n => mtbddLeafCountFn s (walkFuel s) (n : ℕ) w) (.start s) = some w ∧
      (∀ n, w.marks n = true ↔ InCone s r n) ∧ w.cou = leavesIn s r ∧
      ∀ v ∈ w.visits, InCone s r v := by
  classical
  obtain ⟨flight, htable⟩ := h.table
  obtain ⟨w', hw', hdone, hsum, hvisits⟩ := walkAll_cone hr (leafWeight s)
    (closedSet_leafFields h) (fun _ _ hm => succ_subset_leafFields hm) (fun n _ => rfl)
    ((Counter.start s).toWalk true)
    (fun n => by simp [Counter.toWalk, Counter.start, BddState.marks, htable.mark])
  rw [walkAll, ← foldlM_toWalk true (fun n w => mtbddLeafCountFn_walk s (walkFuel s) n w) r
    (.start s), Option.map_eq_some_iff] at hw'
  obtain ⟨w, hw, rfl⟩ := hw'
  refine ⟨w, hw, fun n => ?_, ?_, fun v hv => ?_⟩
  · rw [← hdone n]
    simp [Counter.toWalk]
  · have hleaves : ∑ n ∈ (Finset.range s.bddnodesize).filter (InCone s r), leafWeight s n =
        leavesIn s r := by
      rw [leavesIn, ← Finset.filter_filter, Finset.card_filter]
      refine Finset.sum_congr rfl fun n hn => ?_
      rw [leafWeight, isFree_inCone (Finset.mem_filter.mp hn).2]
      simp
    rw [hleaves] at hsum
    simpa [Counter.toWalk, Counter.start] using hsum
  · exact (hvisits v hv).resolve_left List.not_mem_nil

/-- `bdd_unmark` from the roots unmarks the diagrams, if the fields of terminals stay in them. -/
theorem unmark_closed (hc : Closed s r) (w : Counter)
    (hw : ∀ n, w.marks n = true ↔ InCone s r n) :
    ∃ w', r.foldlM (fun w n => bddUnmark s (walkFuel s) (n : ℕ) w) w = some w' ∧
      (∀ n, w'.marks n = false) ∧ ∀ v ∈ w'.visits, v ∈ w.visits ∨ InCone s r v := by
  have hC := closedSet_fields h hc
  have hskip : ∀ n, InCone s r n → s.isFree n = !s.live n := fun n hn => by
    rw [isFree_inCone hn, hn.live]
    rfl
  obtain ⟨W, hW⟩ : ∃ W, walkAll 2 s.bddnodesize s.isFree (fields s) (fun _ => 0) (walkFuel s)
      (r.map fun n : ℕ => (n : ℤ)) (w.toWalk false) = some W :=
    walkAll_returns hC (fun n hn _ => hskip n hn) _ _ (roots_closed hr) _
      (Nat.lt_succ_of_le (unmarked_le _ _))
  have hspec := walkAll_spec (by decide) (fun n hn => (BddState.live_iff.mp hn).1)
    (fun n hn _ _ => hskip n hn) (fun n hn _ => hC.next n hn) _ _ (roots_closed hr) _ W hW
  rw [walkAll, ← foldlM_toWalk false (fun n w => bddUnmark_walk s (walkFuel s) n w) r w,
    Option.map_eq_some_iff] at hW
  obtain ⟨w', hw', rfl⟩ := hW
  refine ⟨w', hw', fun n => ?_, hspec.only⟩
  have hroots : (r.map fun n : ℕ => (n : ℤ)).map Int.toNat = r := by simp [Function.comp_def]
  have hdone : (w'.toWalk false).done n = true := by
    by_cases hn : InCone s r n
    · -- a node is unmarked, and then its children are
      obtain ⟨m, hm, hreach⟩ := hn
      induction hreach with
      | refl hl => exact hspec.marks.roots m (by rw [hroots]; exact hm) hl
      | @step k j hk hj hl ih =>
        have hmarked : (w.toWalk false).done k = false := by
          simpa [Counter.toWalk] using (hw k).mpr ⟨m, hm, hk⟩
        exact (hspec.marks.closed k ih hmarked).2 j (succ_subset_fields hj) hl
    · refine hspec.marks.mono n ?_
      simpa [Counter.toWalk] using mt (hw n).mp hn
  simpa [Counter.toWalk] using hdone

end Phases

/-- A `bdd_markcount` that returns has read the fields of every node of the diagrams. -/
theorem markcount_reads {r : List ℕ} {w : Counter} (hstart : ∀ n, s.marks n = false)
    (hw : r.foldlM (fun w n => bddMarkcount s (walkFuel s) (n : ℕ) w) (.start s) = some w) {n : ℕ}
    (hn : InCone s r n) : ∀ i ∈ fields s n, 2 ≤ i → i.toNat ∈ w.visits := by
  have hW : (r.foldlM (fun w n => bddMarkcount s (walkFuel s) (n : ℕ) w) (.start s)).map
      (Counter.toWalk true) = walkAll 2 s.bddnodesize s.isFree (fields s) (fun _ => 1)
        (walkFuel s) (r.map fun n : ℕ => (n : ℤ)) ((Counter.start s).toWalk true) :=
    foldlM_toWalk true (fun n w => bddMarkcount_walk s (walkFuel s) n w) r (.start s)
  rw [hw] at hW
  have hspec := walkAll_reads hW.symm
  have hroots : (r.map fun n : ℕ => (n : ℤ)).map Int.toNat = r := by simp [Function.comp_def]
  have hzero : ∀ n, ((Counter.start s).toWalk true).done n = false := fun n => by
    simp [Counter.toWalk, Counter.start, hstart]
  have hdone : (w.toWalk true).done n = true := by
    rw [hspec.marks.iff_reach hzero, hroots]
    obtain ⟨m, hm, hreach⟩ := hn
    refine ⟨m, hm, ?_⟩
    induction hreach with
    | refl hl => exact .refl hl
    | step _ hk hl ih => exact ih.step (succ_subset_fields hk) hl
  exact fun i hi h2 => hspec.reads n hdone (hzero n) i hi (by exact_mod_cast h2)

/-- A `bdd_unmark` that returns adds to what was read, and has read the fields of the nodes that
it unmarked. -/
theorem unmark_reads {r : List ℕ} {w w' : Counter}
    (hw : r.foldlM (fun w n => bddUnmark s (walkFuel s) (n : ℕ) w) w = some w') :
    (∀ v ∈ w.visits, v ∈ w'.visits) ∧ ∀ n, w.marks n = true → w'.marks n = false →
      ∀ i ∈ fields s n, 2 ≤ i → i.toNat ∈ w'.visits := by
  have hW : (r.foldlM (fun w n => bddUnmark s (walkFuel s) (n : ℕ) w) w).map
      (Counter.toWalk false) = walkAll 2 s.bddnodesize s.isFree (fields s) (fun _ => 0)
        (walkFuel s) (r.map fun n : ℕ => (n : ℤ)) (w.toWalk false) :=
    foldlM_toWalk false (fun n w => bddUnmark_walk s (walkFuel s) n w) r w
  rw [hw] at hW
  have hspec := walkAll_reads hW.symm
  refine ⟨hspec.visits, fun n hn hn' i hi h2 => ?_⟩
  exact hspec.reads n (by simp [Counter.toWalk, hn']) (by simp [Counter.toWalk, hn]) i hi
    (by exact_mod_cast h2)

/-! ## Main results -/

/-- A diagram without terminals is always counted. -/
theorem closed_of_plain {r : List ℕ} (hplain : ∀ n, InCone s r n → s.level n ≠ maxlevel) :
    Closed s r :=
  fun n hn hlevel => absurd hlevel (hplain n hn)

theorem foldlM_single (f : ℕ → Counter → Option Counter) (n : ℕ) (w : Counter) :
    [n].foldlM (fun w n => f n w) w = f n w := by
  simp [List.foldlM_cons]

section Main

variable {r : List ℕ} (h : Diagrams D isPrime s)
include h

theorem anodecount_iff (hr : ∀ n ∈ r, s.IsNode n) :
    Counts s r (nodesIn s r) (bddAnodecount s r) ↔ Closed s r := by
  obtain ⟨flight, htable⟩ := h.table
  constructor
  · rintro ⟨w', hcall, hvisits, -⟩ n hn hlevel i hi
    simp only [bddAnodecount, Option.bind_eq_bind, Option.bind_eq_some_iff, Option.pure_def,
      Option.some.injEq, Prod.mk.injEq] at hcall
    obtain ⟨w, hmark, w'', hunmark, -, rfl⟩ := hcall
    by_cases h2 : i < 2
    · exact Or.inl h2
    · refine Or.inr (hvisits _ ((unmark_reads hunmark).1 _ ?_)).2
      exact markcount_reads htable.mark hmark hn i hi (by omega)
  · intro hc
    obtain ⟨w, hmark, hmarks, hcou, hvisits⟩ := markcount_closed hr h hc
    obtain ⟨w', hunmark, hclear, hvisits'⟩ := unmark_closed hr h hc w hmarks
    refine ⟨w', ?_, fun v hv => ?_, hclear⟩
    · simp [bddAnodecount, hmark, hunmark, hcou]
    · have hin := (hvisits' v hv).elim (hvisits v) id
      exact ⟨hin.lt h, hin⟩

/-- One root, as an array of length one. -/
theorem nodecount_eq {n : ℕ} (hn : s.IsNode n) : bddNodecount s n = bddAnodecount s [n] := by
  obtain ⟨flight, htable⟩ := h.table
  have hcheck : ¬ (n ≥ s.bddnodesize ∨ n ≥ 2 ∧ s.isFree n = true) := by
    have := htable.size.1
    rcases hn with hlt | hl
    · omega
    · have hlt := htable.live_lt hl
      have hfree : s.isFree n = false := isFree_inCone ⟨n, List.mem_singleton_self n, .refl hl⟩
      simp [hfree]
      omega
  rw [bddNodecount, if_neg hcheck]
  simp [bddAnodecount, List.foldlM_cons]

theorem leafCount_iff {n : ℕ} (hn : s.IsNode n) :
    Counts s [n] (leavesIn s [n]) (mtbddLeafCount s n) ↔ Closed s [n] := by
  have hr : ∀ m ∈ [n], s.IsNode m := fun m hm => List.mem_singleton.mp hm ▸ hn
  obtain ⟨w, hmark, hmarks, hcou, hvisits⟩ := leafCountFn_inCone hr h
  rw [foldlM_single fun n => mtbddLeafCountFn s (walkFuel s) (n : ℕ)] at hmark
  constructor
  · rintro ⟨w', hcall, hvisits', hclear⟩ k hk hlevel i hi
    simp only [mtbddLeafCount, hmark, Option.bind_eq_bind, Option.bind_some,
      Option.bind_eq_some_iff, Option.pure_def, Option.some.injEq, Prod.mk.injEq] at hcall
    obtain ⟨w'', hunmark, -, rfl⟩ := hcall
    have hunmark' : [n].foldlM (fun w n => bddUnmark s (walkFuel s) (n : ℕ) w) w = some w'' := by
      rw [foldlM_single fun n => bddUnmark s (walkFuel s) (n : ℕ)]
      exact hunmark
    by_cases h2 : i < 2
    · exact Or.inl h2
    · exact Or.inr (hvisits' _ ((unmark_reads hunmark').2 k ((hmarks k).mpr hk) (hclear k) i hi
        (by omega))).2
  · intro hc
    obtain ⟨w', hunmark, hclear, hvisits'⟩ := unmark_closed hr h hc w hmarks
    rw [foldlM_single fun n => bddUnmark s (walkFuel s) (n : ℕ)] at hunmark
    refine ⟨w', ?_, fun v hv => ?_, hclear⟩
    · simp [mtbddLeafCount, hmark, hunmark, hcou]
    · have hin := (hvisits' v hv).elim (hvisits v) id
      exact ⟨hin.lt h, hin⟩

/-- The three counts are exact, read nodes of the diagrams only and leave no mark, if and only if
the fields of the terminals, read as node numbers, stay in the diagrams. -/
theorem counts_iff (hr : ∀ n ∈ r, s.IsNode n) :
    (Counts s r (nodesIn s r) (bddAnodecount s r) ↔ Closed s r) ∧
      ∀ n ∈ r, (Counts s [n] (nodesIn s [n]) (bddNodecount s n) ↔ Closed s [n]) ∧
        (Counts s [n] (leavesIn s [n]) (mtbddLeafCount s n) ↔ Closed s [n]) := by
  refine ⟨anodecount_iff h hr, fun n hn => ⟨?_, leafCount_iff h (hr n hn)⟩⟩
  rw [nodecount_eq h (hr n hn)]
  exact anodecount_iff h fun m hm => List.mem_singleton.mp hm ▸ hr n hn

end Main

/-! ## Sessions -/

theorem diagrams_of_session {Suits : BddState P → TableCall P → Prop}
    (hs : Session D isPrime Suits s)
    (hchild : ((List.range s.bddnodesize).all fun n => !s.live n ||
      (s.succ n).all fun m => decide (m < 2) || s.live m) = true) : Diagrams D isPrime s := by
  obtain ⟨flight, htable⟩ := hs.sound.table
  refine ⟨⟨flight, htable⟩, fun n hn m hm => ?_⟩
  have h := List.all_eq_true.mp hchild n (List.mem_range.mpr (htable.live_lt hn))
  rw [hn, Bool.not_true, Bool.false_or] at h
  simpa [BddState.IsNode] using List.all_eq_true.mp h m hm

/-- Values of one registered type. -/
def wordsDomain : MtbddDomain UInt32 where
  domaintype := .custom
  word := id
  ofWord := id
  halves v := (v, 0)
  equal v w := v == w
  typeNumber := 1
  hashfun _ := some id
  comparefun _ := some fun v w => w == some v

/-- The terminals of two values are nodes `6` and `7`; the nodes `8` and `9` share the first. -/
def sharedSession : BddState UInt32 :=
  [.setvarnum 2, .maketerminal 5 0, .maketerminal 9 0, .makenode 1 6 7, .makenode 0 6 8].foldl
    (fun s call => TableCall.apply wordsDomain trialDivision s call) (bddInit 11 3)

theorem sharedSession_diagrams : Diagrams wordsDomain trialDivision sharedSession := by
  have hzero : wordsDomain.domaintype = .custom → 0 < wordsDomain.typeNumber := fun _ => by decide
  have hsession : Session wordsDomain trialDivision (fun _ _ => True) sharedSession :=
    .call (.makenode 0 6 8) (.call (.makenode 1 6 7) (.call (.maketerminal 9 0)
      (.call (.maketerminal 5 0) (.call (.setvarnum 2) (.init 3 ⟨by decide, by decide, by decide⟩)
        trivial trivial) hzero trivial) hzero trivial) (show 1 < maxlevel by decide) trivial)
      (show 0 < maxlevel by decide) trivial
  exact diagrams_of_session hsession (by decide +kernel)

/-- The fields of both terminals are below `2`. -/
theorem sharedSession_counts :
    Counts sharedSession [9, 5] (nodesIn sharedSession [9, 5]) (bddAnodecount sharedSession [9, 5]) ∧
      Counts sharedSession [9] (nodesIn sharedSession [9]) (bddNodecount sharedSession 9) ∧
      Counts sharedSession [9] (leavesIn sharedSession [9]) (mtbddLeafCount sharedSession 9) := by
  have hr : ∀ n ∈ [9, 5], sharedSession.IsNode n := by
    have hlive : ∀ n ∈ [9, 5], sharedSession.live n = true := by decide +kernel
    exact fun n hn => .inr (hlive n hn)
  have hfields : ((List.range 11).all fun n => sharedSession.level n != maxlevel ||
      (fields sharedSession n).all fun i => decide (i < 2)) = true := by
    decide +kernel
  have hsize : sharedSession.bddnodesize = 11 := by decide +kernel
  have hclosed : ∀ r, Closed sharedSession r := by
    intro r n hn hlevel i hi
    have hlt := hn.lt sharedSession_diagrams
    have h := List.all_eq_true.mp hfields n (List.mem_range.mpr (hsize ▸ hlt))
    rw [hlevel, bne_self_eq_false, Bool.false_or] at h
    exact .inl (of_decide_eq_true (List.all_eq_true.mp h i hi))
  obtain ⟨hall, hone⟩ := counts_iff sharedSession_diagrams hr
  obtain ⟨hnodes, hleaves⟩ := hone 9 List.mem_cons_self
  exact ⟨hall.mpr (hclosed _), hnodes.mpr (hclosed _), hleaves.mpr (hclosed _)⟩

/-- The calls that make the terminal of the value seven. -/
def sevenSession : BddState UInt32 :=
  (TableCall.maketerminal 7 0).apply intDomain trialDivision
    ((TableCall.setvarnum 2).apply intDomain trialDivision (bddInit 11 3))

theorem sevenSession_diagrams : Diagrams intDomain trialDivision sevenSession := by
  have hsession : Session intDomain trialDivision (fun _ _ => True) sevenSession :=
    .call _ (.call _ (.init 3 ⟨by decide, by decide, by decide⟩) trivial trivial)
      (fun h => nomatch h) trivial
  exact diagrams_of_session hsession (by decide +kernel)

/-- The terminal of the value seven is node `6`, and its `LOW` is `42`. -/
theorem sevenSession_notCounted :
    ¬ ∀ (s : BddState UInt32) (n : ℕ), Diagrams intDomain trialDivision s → s.IsNode n →
      Counts s [n] (nodesIn s [n]) (bddNodecount s n) ∧
        Counts s [n] (leavesIn s [n]) (mtbddLeafCount s n) := by
  intro h
  obtain ⟨⟨w, hcall, -⟩, -⟩ :=
    h sevenSession 6 sevenSession_diagrams (Or.inr (by decide +kernel))
  have hnone : (bddNodecount sevenSession 6).isNone = true := by decide +kernel
  simp [hcall] at hnone

end Counting

end MoToBuddy.Bdd
