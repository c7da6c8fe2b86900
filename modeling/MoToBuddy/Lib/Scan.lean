import Mathlib.Data.Int.Notation
import Mathlib.Tactic.Common

/-!
# Numbers in text

A text is a list of characters. `printInt` is what `%d` prints, `scanInt` what `%d` and `strtol`
read, `strtok` the next word of a line, and `textLines` the lines of `getline`.

* `scanInt_printInt`: a number that was printed is read back.
* `strtok_word`: the words of a line come one after the other.
* `textLines_flatten`: the lines of a text that was written line by line.
-/

namespace Scanning

/-- The digits of a number. -/
def decimal (n : ℕ) : List Char := Nat.toDigits 10 n

/-- The digits, after a sign if the number is negative. -/
def printInt (i : ℤ) : List Char := if i < 0 then '-' :: decimal (-i).toNat else decimal i.toNat

/-- `isspace`. -/
def isSpace (c : Char) : Bool :=
  c = ' ' || c = '\n' || c = '\t' || c = '\r' || c = '\x0b' || c = '\x0c'

/-- A sign, if there is one. -/
def scanSign : List Char → ℤ × List Char
  | '-' :: text => (-1, text)
  | '+' :: text => (1, text)
  | text => (1, text)

/-- The number that a text starts with, after blanks, and the text after it. -/
def scanInt (text : List Char) : Option (ℤ × List Char) :=
  let (sign, text) := scanSign (text.dropWhile isSpace)
  let digits := text.takeWhile Char.isDigit
  if digits = [] then none
  else some (sign * Nat.ofDigitChars 10 digits 0, text.dropWhile Char.isDigit)

/-- A character that has to be there. -/
def scanChar (c : Char) : List Char → Option (List Char)
  | d :: text => if d = c then some text else none
  | [] => none

/-- `strtok` with blanks between the words: the next word, and the text after it. -/
def strtok (text : List Char) : Option (List Char × List Char) :=
  let text := text.dropWhile (· = ' ')
  if text = [] then none else some (text.takeWhile (· ≠ ' '), text.dropWhile (· ≠ ' '))

/-- The lines with their ends. -/
def textLines : List Char → List (List Char)
  | [] => []
  | c :: text =>
    if c = '\n' then [c] :: textLines text
    else
      match textLines text with
      | [] => [[c]]
      | line :: lines => (c :: line) :: lines

/-- The text does not go on with a digit. -/
def Stops (text : List Char) : Prop := ∀ c ∈ text.head?, c.isDigit = false

theorem stops_cons {c : Char} {text : List Char} (h : c.isDigit = false) : Stops (c :: text) :=
  fun d hd => by
    obtain rfl : c = d := by simpa using hd
    exact h

/-! ## Numbers -/

theorem isDigit_of_mem_decimal {n : ℕ} {c : Char} (h : c ∈ decimal n) : c.isDigit = true :=
  Nat.isDigit_of_mem_toDigits (by decide) (by decide) h

theorem decimal_ne_nil (n : ℕ) : decimal n ≠ [] := Nat.toDigits_ne_nil

theorem isSpace_of_isDigit {c : Char} (h : c.isDigit = true) : isSpace c = false := by
  have hne : ∀ d : Char, d.isDigit = false → c ≠ d := by
    rintro d hd rfl
    rw [h] at hd
    exact Bool.noConfusion hd
  unfold isSpace
  simp [hne ' ' (by decide), hne '\n' (by decide), hne '\t' (by decide), hne '\r' (by decide),
    hne '\x0b' (by decide), hne '\x0c' (by decide)]

/-- What a word is taken from a text: the word ends where the text goes on with something else. -/
theorem span_append {p : Char → Bool} {word rest : List Char} (hw : ∀ c ∈ word, p c = true)
    (hr : ∀ c ∈ rest.head?, p c = false) :
    (word ++ rest).takeWhile p = word ∧ (word ++ rest).dropWhile p = rest := by
  induction word with
  | nil =>
    cases rest with
    | nil => exact ⟨rfl, rfl⟩
    | cons c rest =>
      have hc : p c = false := hr c rfl
      simp [hc]
  | cons c word ih =>
    have hc := hw c List.mem_cons_self
    obtain ⟨ht, hd⟩ := ih fun d hd => hw d (List.mem_cons_of_mem c hd)
    simp [hc, ht, hd]

theorem dropWhile_of_head {p : Char → Bool} {text : List Char}
    (h : ∀ c ∈ text.head?, p c = false) : text.dropWhile p = text := by
  cases text with
  | nil => rfl
  | cons c text =>
    have hc : p c = false := h c rfl
    simp [hc]

/-- The head of a number. -/
theorem decimal_head (n : ℕ) : ∃ c word, decimal n = c :: word ∧ c.isDigit = true := by
  obtain ⟨c, word, hword⟩ : ∃ c word, decimal n = c :: word :=
    List.exists_cons_of_ne_nil (decimal_ne_nil n)
  exact ⟨c, word, hword, isDigit_of_mem_decimal (n := n) (by simp [hword])⟩

theorem scanSign_decimal (n : ℕ) (rest : List Char) :
    scanSign (decimal n ++ rest) = (1, decimal n ++ rest) := by
  obtain ⟨c, word, hword, hc⟩ := decimal_head n
  rw [hword, List.cons_append]
  unfold scanSign
  split
  · rename_i heq
    obtain ⟨rfl, -⟩ := List.cons.inj heq
    exact absurd hc (by decide)
  · rename_i heq
    obtain ⟨rfl, -⟩ := List.cons.inj heq
    exact absurd hc (by decide)
  · rfl

/-- A number that was printed is read back, with what comes after it. -/
theorem scanInt_printInt (i : ℤ) {rest : List Char} (h : Stops rest) :
    scanInt (printInt i ++ rest) = some (i, rest) := by
  -- the sign and the digits
  obtain ⟨sign, n, hsign, hspace, rfl⟩ : ∃ (sign : ℤ) (n : ℕ),
      scanSign (printInt i ++ rest) = (sign, decimal n ++ rest) ∧
      (printInt i ++ rest).dropWhile isSpace = printInt i ++ rest ∧ sign * n = i := by
    by_cases hi : i < 0
    · refine ⟨-1, (-i).toNat, ?_, ?_, by omega⟩
      · rw [printInt, if_pos hi]
        rfl
      · rw [printInt, if_pos hi]
        rfl
    · obtain ⟨c, word, hword, hc⟩ := decimal_head i.toNat
      refine ⟨1, i.toNat, ?_, ?_, by omega⟩
      · rw [printInt, if_neg hi, scanSign_decimal]
      · rw [printInt, if_neg hi]
        refine dropWhile_of_head fun d hd => ?_
        obtain rfl : c = d := by simpa [hword] using hd
        exact isSpace_of_isDigit hc
  obtain ⟨htake, hdrop⟩ :=
    span_append (fun c (hc : c ∈ decimal n) => isDigit_of_mem_decimal hc) h
  unfold scanInt
  rw [hspace, hsign]
  simp only [htake, hdrop, decimal_ne_nil, if_false]
  rw [decimal, Nat.ofDigitChars_ten_toDigits]

/-- A number has digits and a sign only. -/
theorem mem_printInt {i : ℤ} {c : Char} (h : c ∈ printInt i) : c = '-' ∨ c.isDigit = true := by
  unfold printInt at h
  split at h
  · rcases List.mem_cons.mp h with rfl | h
    · exact Or.inl rfl
    · exact Or.inr (isDigit_of_mem_decimal h)
  · exact Or.inr (isDigit_of_mem_decimal h)

theorem not_mem_printInt (i : ℤ) {c : Char} (hc : c ≠ '-') (hd : c.isDigit = false) :
    c ∉ printInt i := fun h => by
  rcases mem_printInt h with h | h
  · exact hc h
  · rw [hd] at h
    exact Bool.noConfusion h

theorem printInt_ne_nil (i : ℤ) : printInt i ≠ [] := by
  unfold printInt
  split
  · exact List.cons_ne_nil _ _
  · exact decimal_ne_nil _

/-- Blanks before a number are skipped. -/
theorem scanInt_space {c : Char} (h : isSpace c = true) (text : List Char) :
    scanInt (c :: text) = scanInt text := by
  unfold scanInt
  rw [List.dropWhile_cons_of_pos h]

@[simp] theorem scanChar_self (c : Char) (text : List Char) :
    scanChar c (c :: text) = some text := if_pos rfl

/-! ## Words -/

theorem strtok_space (text : List Char) : strtok (' ' :: text) = strtok text := by
  unfold strtok
  rw [List.dropWhile_cons_of_pos (by decide)]

/-- The next word of a line. -/
theorem strtok_word (word rest : List Char) (hne : word ≠ []) (hw : ' ' ∉ word)
    (hr : ∀ c ∈ rest.head?, c = ' ') : strtok (word ++ rest) = some (word, rest) := by
  obtain ⟨c, w, rfl⟩ := List.exists_cons_of_ne_nil hne
  have hskip : (c :: w ++ rest).dropWhile (· = ' ') = c :: w ++ rest :=
    dropWhile_of_head fun d hd => by
      obtain rfl : c = d := by simpa using hd
      exact decide_eq_false fun h => hw (by simp [h])
  obtain ⟨htake, hdrop⟩ := span_append (p := (· ≠ ' '))
    (fun d (hd : d ∈ c :: w) => decide_eq_true fun h => hw (h ▸ hd)) fun d (hd : d ∈ rest.head?) => by
      simp [hr d hd]
  unfold strtok
  dsimp only
  rw [hskip, htake, hdrop]
  rfl

/-! ## Lines -/

theorem textLines_line {line : List Char} (h : '\n' ∉ line) (text : List Char) :
    textLines (line ++ '\n' :: text) = (line ++ ['\n']) :: textLines text := by
  induction line with
  | nil => simp [textLines]
  | cons c line ih =>
    obtain ⟨hc, hl⟩ := not_or.mp fun hmem => h (List.mem_cons.mpr hmem)
    rw [List.cons_append, textLines, if_neg (Ne.symm hc), ih hl]
    rfl

/-- Some text with the end of a line after it. -/
def IsLine (l : List Char) : Prop := ∃ line, '\n' ∉ line ∧ l = line ++ ['\n']

/-- A text that was written line by line is read line by line. -/
theorem textLines_flatten {lines : List (List Char)} (h : ∀ l ∈ lines, IsLine l) :
    textLines lines.flatten = lines := by
  induction lines with
  | nil => rfl
  | cons l lines ih =>
    obtain ⟨line, hline, rfl⟩ := h l List.mem_cons_self
    rw [List.flatten_cons, List.append_assoc, List.singleton_append, textLines_line hline,
      ih fun l hl => h l (List.mem_cons_of_mem _ hl)]

end Scanning
