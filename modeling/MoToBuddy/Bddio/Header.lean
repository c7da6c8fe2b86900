import Mathlib.Data.List.TakeWhile
import MoToBuddy.Bddio.Load

/-!
# The header of a file (`bddio.c`)

`BddFile` is what `bdd_fnsave` writes into a file. The loop over the header reads the numbers that are
in it, and leaves the lines of the nodes (`BddFile.Wellformed.readHeader`). The number of nodes may be
any other number, or missing (`titleWith`).
-/

namespace MoToBuddy.Bddio

open Scanning

/-- A saved diagram: its names, the numbers of the header and the lines of the nodes. -/
structure BddFile where
  bddname : List Char
  bddtype : List Char
  vnum : ℕ
  nodes : ℕ
  root : ℕ
  order : List ℕ
  lines : List NodeLine

namespace BddFile

/-- The first lines of the file. -/
def title (f : BddFile) : List (List Char) :=
  ['@' :: f.bddtype ++ ['\n'], "%Name ".toList ++ f.bddname ++ ['\n'], headLine "%Vars" f.vnum,
    headLine "%Nodes" f.nodes, headLine "%Root" f.root]

/-- The first lines with another number of nodes, or without a line for it. -/
def titleWith (f : BddFile) (nodes : Option ℕ) : List (List Char) :=
  ['@' :: f.bddtype ++ ['\n'], "%Name ".toList ++ f.bddname ++ ['\n'], headLine "%Vars" f.vnum] ++
    (nodes.map (headLine "%Nodes")).toList ++ [headLine "%Root" f.root]

/-- The lines after them. A constant has none. -/
def body (f : BddFile) : List (List Char) :=
  if f.root < 2 then [] else orderLine f.order :: f.lines.map NodeLine.text

/-- The text of the file. -/
def text (f : BddFile) : List Char := (f.title ++ f.body).flatten

/-- The text with another number of nodes, or without a line for it. -/
def textWith (f : BddFile) (nodes : Option ℕ) : List Char := (f.titleWith nodes ++ f.body).flatten

theorem textWith_nodes (f : BddFile) : f.textWith (some f.nodes) = f.text := rfl

/-- The names are on a line of their own, and the order has a number for each variable. -/
structure Wellformed (f : BddFile) : Prop where
  bddname : '\n' ∉ f.bddname
  bddtype : '\n' ∉ f.bddtype
  order : f.order.length = f.vnum

end BddFile

/-! ## The lines of a file -/

theorem headLine_isLine {word : String} (h : '\n' ∉ word.toList) (n : ℕ) :
    IsLine (headLine word n) := by
  refine ⟨word.toList ++ ' ' :: printInt n, fun hmem => ?_, by simp [headLine]⟩
  rcases List.mem_append.mp hmem with hmem | hmem
  · exact h hmem
  · rcases List.mem_cons.mp hmem with hc | hmem
    · exact absurd hc (by decide)
    · exact not_mem_printInt _ (by decide) (by decide) hmem

theorem orderLine_isLine (order : List ℕ) : IsLine (orderLine order) := by
  refine ⟨_, fun hmem => ?_, rfl⟩
  rcases List.mem_append.mp hmem with hmem | hmem
  · exact absurd hmem (by decide)
  · obtain ⟨n, -, hn⟩ := List.mem_flatMap.mp hmem
    rcases List.mem_append.mp hn with hn | hn
    · exact not_mem_printInt _ (by decide) (by decide) hn
    · exact absurd (List.mem_singleton.mp hn) (by decide)

theorem NodeLine.text_isLine (x : NodeLine) : IsLine x.text := by
  refine ⟨printInt x.key ++ '[' :: (printInt x.var ++ ']' :: ' ' :: (printInt x.low ++ ' ' ::
    printInt x.high)), ?_, by simp [NodeLine.text]⟩
  have h : ∀ i, '\n' ∉ printInt i := fun i => not_mem_printInt i (by decide) (by decide)
  simp [h]

/-- The text of a file is read line by line. -/
theorem BddFile.Wellformed.textLines {f : BddFile} (h : f.Wellformed) (nodes : Option ℕ) :
    textLines (f.textWith nodes) = f.titleWith nodes ++ f.body := by
  refine textLines_flatten fun l hl => ?_
  rcases List.mem_append.mp hl with hl | hl
  · simp only [BddFile.titleWith, List.mem_append, List.mem_cons, List.not_mem_nil, or_false,
      Option.mem_toList] at hl
    rcases hl with ((rfl | rfl | rfl) | hl) | rfl
    · exact ⟨'@' :: f.bddtype, by simp [h.bddtype], rfl⟩
    · exact ⟨"%Name ".toList ++ f.bddname, by simp [h.bddname], rfl⟩
    · exact headLine_isLine (by decide) _
    · obtain ⟨n, -, rfl⟩ := Option.map_eq_some_iff.mp hl
      exact headLine_isLine (by decide) _
    · exact headLine_isLine (by decide) _
  · unfold BddFile.body at hl
    split at hl
    · exact absurd hl List.not_mem_nil
    · rcases List.mem_cons.mp hl with rfl | hl
      · exact orderLine_isLine _
      · obtain ⟨x, -, rfl⟩ := List.mem_map.mp hl
        exact x.text_isLine

/-! ## The numbers of the header -/

/-- A number at the end of a word, or before the end of the line. -/
theorem parseInt_printInt (i : ℤ) (rest : List Char) (h : rest = [] ∨ rest.head? = some '\n') :
    parseInt (printInt i ++ rest) = i := by
  have hstop : Stops rest := fun c hc => by
    rcases h with rfl | h
    · simp at hc
    · obtain rfl : '\n' = c := by simpa [h] using hc
      decide
  unfold parseInt
  rw [scanInt_printInt i hstop, Option.getD_some]
  exact if_pos h

theorem nextNumber_printInt (n : ℕ) : nextNumber (' ' :: (printInt n ++ ['\n'])) = some (n : ℤ) := by
  have hspace : ' ' ∉ printInt n ++ ['\n'] := fun hmem => by
    rcases List.mem_append.mp hmem with hmem | hmem
    · exact not_mem_printInt _ (by decide) (by decide) hmem
    · exact absurd (List.mem_singleton.mp hmem) (by decide)
  have hword := strtok_word (printInt n ++ ['\n']) [] (by simp) hspace
    (fun c hc => by simp at hc)
  rw [List.append_nil] at hword
  unfold nextNumber
  rw [strtok_space, hword, Option.map_some, parseInt_printInt _ _ (Or.inr rfl)]

/-- The order is read number by number. -/
theorem readOrder_flatMap (order : List ℕ) (rest : List Char) :
    readOrder order.length (' ' :: ((order.flatMap fun n : ℕ => printInt n ++ [' ']) ++ rest)) =
      true := by
  induction order generalizing rest with
  | nil => rfl
  | cons n order ih =>
    have hword := strtok_word (printInt n)
      (' ' :: ((order.flatMap fun n : ℕ => printInt n ++ [' ']) ++ rest))
      (printInt_ne_nil _) (not_mem_printInt _ (by decide) (by decide)) fun c hc => by
        simpa using hc.symm
    have hnum : parseInt (printInt n) = n := by
      simpa using parseInt_printInt n [] (Or.inl rfl)
    rw [List.length_cons, readOrder, List.flatMap_cons, List.append_assoc, List.append_assoc,
      List.singleton_append, strtok_space, hword]
    show (decide (0 ≤ parseInt (printInt n)) && readOrder order.length _) = true
    rw [hnum, ih, Bool.and_true]
    exact decide_eq_true (Int.natCast_nonneg n)

/-! ## The loop over the header -/

variable {h : Header}

theorem headerLine_type (t : List Char) :
    headerLine ('@' :: t) h = (true, { h with started := true, typeR := true }) := rfl

/-- A line of the header that starts with a word. -/
theorem headerLine_word {word : String} {rest : List Char} (hs : h.started = true)
    (hhead : word.toList.head? = some '%') (hw : ' ' ∉ word.toList) :
    headerLine (word.toList ++ ' ' :: rest) h = headerWord word.toList (' ' :: rest) h := by
  have hne : word.toList ≠ [] := fun hnil => by simp [hnil] at hhead
  have hword := strtok_word word.toList (' ' :: rest) hne hw fun c hc => by simpa using hc.symm
  unfold headerLine
  rw [List.head?_append, hhead, if_neg (by simp), if_neg (by simp [hs]), hword]

theorem headerLine_name (hs : h.started = true) (bddname : List Char) :
    headerLine ("%Name ".toList ++ bddname ++ ['\n']) h = (true, { h with nameR := true }) := by
  have hline : "%Name ".toList ++ bddname ++ ['\n'] =
      "%Name".toList ++ ' ' :: (bddname ++ ['\n']) := by
    rw [List.append_assoc]
    rfl
  rw [hline, headerLine_word hs (by decide) (by decide)]
  unfold headerWord
  -- the line goes on with the end of the line at least
  rw [if_pos rfl, strtok_space]
  unfold strtok
  dsimp only
  rw [if_neg fun hnil => ?_]
  · rfl
  · have hall := List.dropWhile_eq_nil_iff.mp hnil '\n' (by simp)
    exact absurd hall (by decide)

theorem headerLine_vars (hs : h.started = true) (n : ℕ) :
    headerLine (headLine "%Vars" n) h = (true, { h with varsR := true, vnum := n }) := by
  unfold headLine
  rw [headerLine_word hs (by decide) (by decide)]
  unfold headerWord
  rw [if_neg (by decide), if_pos rfl, nextNumber_printInt]
  simp

theorem headerLine_nodes (hs : h.started = true) (n : ℕ) :
    headerLine (headLine "%Nodes" n) h = (true, { h with lhNodenum := n }) := by
  unfold headLine
  rw [headerLine_word hs (by decide) (by decide)]
  unfold headerWord
  rw [if_neg (by decide), if_neg (by decide), if_pos rfl, nextNumber_printInt]
  simp

theorem headerLine_root (hs : h.started = true) (n : ℕ) : headerLine (headLine "%Root" n) h =
    (true, { h with rootR := true, root := n, orderR := h.orderR || (n : ℤ) < 2 }) := by
  unfold headLine
  rw [headerLine_word hs (by decide) (by decide)]
  unfold headerWord
  rw [if_neg (by decide), if_neg (by decide), if_neg (by decide), if_pos rfl, nextNumber_printInt]
  simp

theorem headerLine_ordering (hs : h.started = true) {order : List ℕ}
    (hlen : h.vnum = order.length) :
    headerLine (orderLine order) h = (true, { h with orderR := true }) := by
  have hline : orderLine order = "%Ordering".toList ++
      ' ' :: ((order.flatMap fun n : ℕ => printInt n ++ [' ']) ++ ['\n']) := by
    unfold orderLine
    rw [List.append_assoc]
    rfl
  rw [hline, headerLine_word hs (by decide) (by decide)]
  unfold headerWord
  rw [if_neg (by decide), if_neg (by decide), if_neg (by decide), if_neg (by decide), if_pos rfl,
    hlen, Int.toNat_natCast, readOrder_flatMap]

theorem readHeader_cons {line : List Char} {lines : List (List Char)} {h' : Header}
    (horder : h.orderR = false) (hline : headerLine line h = (true, h')) :
    readHeader h (line :: lines) = readHeader h' lines := by
  rw [readHeader, horder, hline]
  rfl

theorem readHeader_done {lines : List (List Char)} (h' : h.orderR = true) :
    readHeader h lines = (true, h, lines) := by
  cases lines with
  | nil => rw [readHeader, h']
  | cons line lines => rw [readHeader, if_pos h']

/-- The header after the loop. -/
def BddFile.header (f : BddFile) (lhNodenum : ℤ) : Header :=
  ⟨true, true, true, true, true, true, f.vnum, lhNodenum, f.root⟩

/-- From the root on. -/
theorem BddFile.Wellformed.readRoot {f : BddFile} (hf : f.Wellformed) (hs : h.started = true)
    (h0 : h.orderR = false) (hv : h.vnum = f.vnum) :
    readHeader h (headLine "%Root" f.root :: f.body) =
      (true, { h with rootR := true, orderR := true, root := f.root },
        if f.root < 2 then [] else f.lines.map NodeLine.text) := by
  rw [readHeader_cons h0 (headerLine_root hs _)]
  unfold BddFile.body
  by_cases hroot : f.root < 2
  · have hconst : (h.orderR || decide ((f.root : ℤ) < 2)) = true := by
      rw [decide_eq_true (by omega), Bool.or_true]
    rw [if_pos hroot, if_pos hroot, readHeader_done hconst, hconst]
  · have hnode : (h.orderR || decide ((f.root : ℤ) < 2)) = false := by
      rw [h0, decide_eq_false (by omega), Bool.or_false]
    have hlen : h.vnum = f.order.length := by rw [hv, hf.order]
    rw [if_neg hroot, if_neg hroot, readHeader_cons (by exact hnode)
      (headerLine_ordering (by exact hs) (by exact hlen)), readHeader_done rfl]

/-- The loop over the header of a file reads its numbers, and leaves the lines of the nodes. -/
theorem BddFile.Wellformed.readHeader {f : BddFile} (hf : f.Wellformed) (h0 : h.orderR = false)
    (nodes : Option ℕ) : readHeader h (f.titleWith nodes ++ f.body) =
      (true, f.header (nodes.elim h.lhNodenum fun n => n),
        if f.root < 2 then [] else f.lines.map NodeLine.text) := by
  unfold BddFile.titleWith
  rw [List.append_assoc, List.append_assoc]
  simp only [List.cons_append, List.nil_append]
  rw [readHeader_cons h0 (headerLine_type _), readHeader_cons (by exact h0) (headerLine_name rfl _),
    readHeader_cons (by exact h0) (headerLine_vars rfl _)]
  cases nodes with
  | none => exact hf.readRoot rfl h0 rfl
  | some n =>
    simp only [Option.map_some, Option.toList_some, List.cons_append, List.nil_append]
    rw [readHeader_cons (by exact h0) (headerLine_nodes rfl _)]
    exact hf.readRoot rfl h0 rfl

end MoToBuddy.Bddio
