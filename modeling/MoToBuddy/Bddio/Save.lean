import MoToBuddy.Bdd.Count
import MoToBuddy.Lib.Scan

/-!
# Saving a diagram (`bddio.c`)

`bdd_fnsave` writes a header and then one line for each node, after the lines of its children.
`Written` says what `bdd_save_rec` has written: the lines of the nodes that it has marked, each one
once. With that the lines of `bdd_save` are those of the nodes of the diagram
(`bddSave_lines`).

* A file is the list of its lines; `fopen` and the writes succeed.
* A terminal has a level after the last variable, for which `bddlevel2var` has no entry.
-/

namespace MoToBuddy.Bddio

open Bdd Bdd.Counting Scanning Marking

variable {P : Type*} {D : MtbddDomain P} {isPrime : ℕ → Bool} {s : BddState P}

/-- The numbers of a line `id[var] low high`, an `unresolved_node`. -/
structure NodeLine where
  key : ℤ
  var : ℤ
  low : ℤ
  high : ℤ
  deriving DecidableEq, Repr

/-- `"%d[%d] %d %d\n"`. -/
def NodeLine.text (x : NodeLine) : List Char :=
  printInt x.key ++ '[' :: (printInt x.var ++ ']' :: ' ' :: (printInt x.low ++ ' ' ::
    (printInt x.high ++ ['\n'])))

/-- A line of the header: a word, a blank and a number. -/
def headLine (word : String) (n : ℕ) : List Char :=
  word.toList ++ ' ' :: (printInt n ++ ['\n'])

/-- The line with the order: each number has a blank after it. -/
def orderLine (order : List ℕ) : List Char :=
  "%Ordering ".toList ++ (order.flatMap fun n : ℕ => printInt n ++ [' ']) ++ ['\n']

/-- The marks of the table, and the lines written so far. -/
structure Writer where
  marks : ℕ → Bool
  lines : List (List Char)

/-- `SETMARKp`. -/
def Writer.setmark (w : Writer) (n : ℕ) : Writer :=
  { w with marks := Function.update w.marks n true }

@[simp] theorem Writer.setmark_marks (w : Writer) (n m : ℕ) :
    (w.setmark n).marks m = if m = n then true else w.marks m := Function.update_apply ..

/-- The line of node `n`. -/
def lineOf (s : BddState P) (n : ℕ) : NodeLine :=
  ⟨n, s.env.bddlevel2var (s.level n), s.low n, s.high n⟩

/-- `bdd_save_rec`. -/
def bddSaveRec (s : BddState P) : ℕ → ℤ → Writer → Option Writer
  | 0, _, _ => none
  | fuel + 1, root, w =>
    if root < 2 then some w
    else if root ≥ s.bddnodesize then none
    else
      let n := root.toNat
      if w.marks n then some w
      else do
        let w ← bddSaveRec s fuel (lowInt s n) (w.setmark n)
        let w ← bddSaveRec s fuel (highInt s n) w
        if s.level n < s.env.bddvarnum then
          return { w with lines := w.lines ++ [(lineOf s n).text] }
        else none

/-- `bdd_save`: the lines, and the marks afterwards. -/
def bddSave (s : BddState P) (r : ℕ) : Option (List (List Char) × (ℕ → Bool)) :=
  if r < 2 then
    some ([headLine "%Vars" 0, headLine "%Nodes" 0, headLine "%Root" r], s.marks)
  else do
    let w ← bddMarkcount s (walkFuel s) r (.start s)
    let n := w.cou
    let w ← bddUnmark s (walkFuel s) r w
    let out ← bddSaveRec s (walkFuel s) r ⟨w.marks, []⟩
    let w ← bddUnmark s (walkFuel s) r { w with marks := out.marks }
    return ([headLine "%Vars" s.env.bddvarnum, headLine "%Nodes" n, headLine "%Root" r,
      orderLine ((List.range s.env.bddvarnum).map s.env.bddvar2level)] ++ out.lines, w.marks)

/-- `bdd_fnsave`. -/
def bddFnsave (s : BddState P) (r : ℕ) (bddname bddtype : List Char) :
    Option (List (List Char) × (ℕ → Bool)) := do
  let (lines, marks) ← bddSave s r
  return (('@' :: bddtype ++ ['\n']) :: ("%Name ".toList ++ bddname ++ ['\n']) :: lines, marks)

/-! ## The lines of the nodes -/

/-- What was written between two states: the nodes `ns` were marked, and their lines written. -/
structure Written (s : BddState P) (ns : List ℕ) (w w' : Writer) : Prop where
  lines : w'.lines = w.lines ++ ns.map fun n => (lineOf s n).text
  nodup : ns.Nodup
  marks : ∀ n, w'.marks n = true ↔ w.marks n = true ∨ n ∈ ns
  fresh : ∀ n ∈ ns, w.marks n = false

theorem Written.refl (w : Writer) : Written s [] w w :=
  ⟨by simp, .nil, fun n => by simp, fun n hn => absurd hn List.not_mem_nil⟩

theorem Written.trans {ns ms : List ℕ} {w w' w'' : Writer} (h : Written s ns w w')
    (h' : Written s ms w' w'') : Written s (ns ++ ms) w w'' := by
  have hmarked : ∀ n ∈ ns, w'.marks n = true := fun n hn => (h.marks n).mpr (Or.inr hn)
  refine ⟨?_, ?_, fun n => ?_, fun n hn => ?_⟩
  · rw [h'.lines, h.lines, List.map_append, List.append_assoc]
  · refine List.nodup_append.mpr ⟨h.nodup, h'.nodup, fun n hn m hm heq => ?_⟩
    have := h'.fresh m hm
    rw [← heq, hmarked n hn] at this
    exact Bool.noConfusion this
  · rw [h'.marks, h.marks, List.mem_append, or_assoc]
  · rcases List.mem_append.mp hn with hn | hn
    · exact h.fresh n hn
    · have := h'.fresh n hn
      cases hw : w.marks n with
      | false => rfl
      | true => rw [(h.marks n).mpr (Or.inl hw)] at this; exact this

/-- A node is marked before its children, and written after them. -/
theorem Written.node {ns : List ℕ} {w w' : Writer} {n : ℕ} (hn : w.marks n = false)
    (h : Written s ns (w.setmark n) w') :
    Written s (ns ++ [n]) w { w' with lines := w'.lines ++ [(lineOf s n).text] } := by
  have hnot : n ∉ ns := fun hmem => by
    simpa using h.fresh n hmem
  refine ⟨?_, ?_, fun m => ?_, fun m hm => ?_⟩
  · dsimp only
    rw [h.lines, List.map_append, List.append_assoc]
    rfl
  · exact List.nodup_append.mpr ⟨h.nodup, by simp, fun m hm k hk heq => by
      obtain rfl := List.mem_singleton.mp hk
      exact hnot (heq ▸ hm)⟩
  · show w'.marks m = true ↔ _
    rw [h.marks, List.mem_append, List.mem_singleton, Writer.setmark_marks]
    by_cases hm : m = n
    · simp [hm]
    · simp [hm]
  · rcases List.mem_append.mp hm with hm | hm
    · have hne : m ≠ n := fun heq => hnot (heq ▸ hm)
      simpa [hne] using h.fresh m hm
    · rw [List.mem_singleton.mp hm]
      exact hn

theorem bddSaveRec_written {fuel : ℕ} {root : ℤ} {w w' : Writer}
    (h : bddSaveRec s fuel root w = some w') : ∃ ns, Written s ns w w' := by
  induction fuel generalizing root w w' with
  | zero => exact nomatch h
  | succ fuel ih =>
    rw [bddSaveRec] at h
    by_cases hroot : root < 2
    · rw [if_pos hroot] at h
      obtain rfl := Option.some.inj h
      exact ⟨[], .refl w⟩
    by_cases hsize : root ≥ s.bddnodesize
    · rw [if_neg hroot, if_pos hsize] at h
      exact nomatch h
    rw [if_neg hroot, if_neg hsize] at h
    dsimp only at h
    by_cases hmark : w.marks root.toNat = true
    · rw [if_pos hmark] at h
      obtain rfl := Option.some.inj h
      exact ⟨[], .refl w⟩
    rw [if_neg hmark] at h
    obtain ⟨w₁, h₁, h⟩ := Option.bind_eq_some_iff.mp h
    obtain ⟨w₂, h₂, h⟩ := Option.bind_eq_some_iff.mp h
    obtain ⟨ns₁, hw₁⟩ := ih h₁
    obtain ⟨ns₂, hw₂⟩ := ih h₂
    split at h
    · obtain rfl := Option.some.inj h
      exact ⟨_, (hw₁.trans hw₂).node (Bool.eq_false_iff.mpr hmark)⟩
    · exact nomatch h

/-- Over a set of decision nodes that is closed, the writer marks what a walk marks. -/
theorem bddSaveRec_walk {C : ℕ → Prop} (hC : ClosedSet 2 s.bddnodesize (fields s) C)
    (hlevel : ∀ n, C n → s.level n < s.env.bddvarnum) {fuel : ℕ} {root : ℤ}
    (hroot : root < 2 ∨ C root.toNat) {w : Writer} {W W' : Walk} (hw : w.marks = W.done)
    (h : walk 2 s.bddnodesize (fun _ => false) (fields s) (fun _ => 1) fuel root W = some W') :
    ∃ w', bddSaveRec s fuel root w = some w' ∧ w'.marks = W'.done := by
  induction fuel generalizing root w W W' with
  | zero => cases h
  | succ fuel ih =>
    rw [walk] at h
    rw [bddSaveRec]
    by_cases hlt : root < 2
    · have hlt' : root < (2 : ℕ) := hlt
      rw [if_pos hlt'] at h
      obtain rfl := Option.some.inj h
      exact ⟨w, if_pos hlt, hw⟩
    have hlt' : ¬ root < (2 : ℕ) := hlt
    rw [if_neg hlt'] at h
    rw [if_neg hlt]
    by_cases hsize : root ≥ s.bddnodesize
    · rw [if_pos hsize] at h
      cases h
    rw [if_neg hsize] at h ⊢
    dsimp only
    by_cases hmark : w.marks root.toNat = true
    · rw [if_pos (by rw [← hw, hmark]; rfl)] at h
      obtain rfl := Option.some.inj h
      exact ⟨w, if_pos hmark, hw⟩
    rw [if_neg (by rw [← hw, Bool.or_false]; exact hmark)] at h
    rw [if_neg hmark]
    have hin : C root.toNat := hroot.resolve_left hlt
    have hnext := hC.next _ hin
    simp only [fields, List.foldlM_cons, List.foldlM_nil, bind_pure] at h
    obtain ⟨W₁, h₁, h₂⟩ := Option.bind_eq_some_iff.mp h
    obtain ⟨w₁, hw₁, hm₁⟩ := ih (hnext _ List.mem_cons_self) (w := w.setmark root.toNat)
      (by simp [Writer.setmark, Walk.mark, Walk.visit, hw]) h₁
    obtain ⟨w₂, hw₂, hm₂⟩ := ih (hnext _ (List.mem_cons_of_mem _ List.mem_cons_self)) hm₁ h₂
    refine ⟨{ w₂ with lines := w₂.lines ++ [(lineOf s root.toNat).text] }, ?_, hm₂⟩
    simp only [hw₁, hw₂, Option.bind_eq_bind, Option.bind_some, hlevel _ hin, if_true]
    rfl

/-! ## The saved file -/

/-- The lines of `bdd_save` for a diagram that is no constant: a header and one line for each node
of the diagram. No mark is left. -/
theorem bddSave_lines (h : Diagrams D isPrime s) {r : ℕ} (hr : s.live r = true)
    (hlevel : ∀ n, InCone s [r] n → s.level n < s.env.bddvarnum) (hmax : s.env.bddvarnum ≤ maxlevel) :
    ∃ (ns : List ℕ) (marks : ℕ → Bool), bddSave s r = some ([headLine "%Vars" s.env.bddvarnum,
        headLine "%Nodes" ns.length, headLine "%Root" r,
        orderLine ((List.range s.env.bddvarnum).map s.env.bddvar2level)] ++
        ns.map (fun n => (lineOf s n).text), marks) ∧
      (∀ n, marks n = false) ∧ ns.Nodup ∧ ∀ n, n ∈ ns ↔ InCone s [r] n := by
  classical
  have h2 : 2 ≤ r := (BddState.live_iff.mp hr).1
  have hnode : ∀ n ∈ [r], s.IsNode n := fun n hn => List.mem_singleton.mp hn ▸ Or.inr hr
  have hclosed : Closed s [r] := closed_of_plain fun n hn => by
    have := hlevel n hn
    omega
  obtain ⟨w, hmark, hmarks, hcou, -⟩ := markcount_closed hnode h hclosed
  obtain ⟨w₁, hunmark, hclear, -⟩ := unmark_closed hnode h hclosed w hmarks
  have hC := closedSet_fields h hclosed
  obtain ⟨W, hW, hdone, -⟩ := walkAll_cone hnode (fun _ => 1) hC
    (fun _ _ hm => succ_subset_fields hm) (fun n _ => show (fun _ => false) n = false from rfl)
    ⟨w₁.marks, 0, []⟩ hclear
  rw [walkAll, List.map_singleton, List.foldlM_cons] at hW
  obtain ⟨W', hW', hlast⟩ := Option.bind_eq_some_iff.mp hW
  obtain rfl := Option.some.inj hlast
  obtain ⟨out, hout, hom⟩ := bddSaveRec_walk hC hlevel (w := ⟨w₁.marks, []⟩)
    (Or.inr ⟨r, List.mem_singleton_self r, .refl hr⟩) rfl hW'
  obtain ⟨ns, hns⟩ := bddSaveRec_written hout
  have hmem : ∀ n, n ∈ ns ↔ InCone s [r] n := fun n => by
    rw [← hdone n, ← hom, hns.marks]
    simp [hclear]
  obtain ⟨w₂, hunmark₂, hclear₂, -⟩ := unmark_closed hnode h hclosed
    { w₁ with marks := out.marks } fun n => by
      rw [← hdone n, ← hom]
  rw [foldlM_single fun n => bddMarkcount s (walkFuel s) (n : ℕ)] at hmark
  rw [foldlM_single fun n => bddUnmark s (walkFuel s) (n : ℕ)] at hunmark hunmark₂
  refine ⟨ns, w₂.marks, ?_, hclear₂, hns.nodup, hmem⟩
  have hlen : w.cou = ns.length := by
    rw [hcou, nodesIn]
    have : (Finset.range s.bddnodesize).filter (InCone s [r]) = ns.toFinset := by
      ext n
      rw [Finset.mem_filter, Finset.mem_range, List.mem_toFinset, hmem]
      exact ⟨fun hn => hn.2, fun hn => ⟨hn.lt h, hn⟩⟩
    rw [this, List.toFinset_card_of_nodup hns.nodup]
  rw [bddSave, if_neg (by omega)]
  simp only [hmark, hunmark, hout, hunmark₂, Option.bind_eq_bind, Option.bind_some, hns.lines, hlen]
  rfl

end MoToBuddy.Bddio
