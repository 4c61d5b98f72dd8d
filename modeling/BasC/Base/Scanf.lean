/-
# Formatted input

`fscanf` works through its format from left to right and stops at the first directive that
does not match, leaving the variables behind it as they were. A number that an `int` cannot
hold and a word that its array cannot hold are undefined.
-/

import BasC.Base.Numerals

namespace BasC

open CChar

/-- A directive of a `scanf` format. -/
inductive ScanDirective
  /-- White space in the format. -/
  | space
  /-- `%d`. -/
  | int
  /-- `%s` into an array of that size. -/
  | word (size : ℕ)
  /-- `%c`. -/
  | char
  deriving DecidableEq

/-- What a directive assigns. -/
inductive ScanValue
  | int (n : ℤ)
  | word (text : CString)
  | char (c : CChar)
  deriving DecidableEq

/-- The value of a `%d`. -/
def ScanValue.int? : ScanValue → Option ℤ
  | .int n => some n
  | _ => none

/-- A letter of a word. -/
def isWordByte (c : CChar) : Bool := !isspace c

/-- The values that `scanf` assigns, in order. -/
def scanf : List ScanDirective → CString → Option (List ScanValue)
  | [], _ => some []
  | .space :: format, text => scanf format (skipSpaces text)
  | .int :: format, text =>
      match scanInt text with
      | none => some []
      | some (n, rest) =>
          if FitsInt n then (scanf format rest).map (.int n :: ·) else none
  | .word size :: format, text =>
      let word := (skipSpaces text).takeWhile isWordByte
      if word = [] then some []
      else if word.length < size then
        (scanf format ((skipSpaces text).dropWhile isWordByte)).map (.word word :: ·)
      else none
  | .char :: format, text =>
      match text with
      | [] => some []
      | c :: rest => (scanf format rest).map (.char c :: ·)

section Directives

variable (format : List ScanDirective)

/-- White space in front of a number is passed over, whether the format has some or not. -/
theorem scanf_space_int (text : CString) :
    scanf (.space :: .int :: format) text = scanf (.int :: format) text := by
  rw [scanf, scanf, scanf, scanInt_skipSpaces]

theorem scanf_int_cons_of_isspace {c : CChar} (hc : isspace c = true) (text : CString) :
    scanf (.int :: format) (c :: text) = scanf (.int :: format) text := by
  rw [scanf, scanf, scanInt_cons_of_isspace hc]

/-- A number that was printed. -/
theorem scanf_int_decimal {n : ℤ} (hn : FitsInt n) {rest : CString} (hrest : EndsNumber rest) :
    scanf (.int :: format) (decimal n ++ rest) = (scanf format rest).map (.int n :: ·) := by
  rw [scanf, scanInt_decimal n hrest]
  exact if_pos hn

theorem scanf_int_of_none {text : CString} (hnone : scanInt text = none) :
    scanf (.int :: format) text = some [] := by
  rw [scanf, hnone]

theorem scanf_char_cons (c : CChar) (rest : CString) :
    scanf (.char :: format) (c :: rest) = (scanf format rest).map (.char c :: ·) := rfl

/-- A word up to the next white space. -/
theorem scanf_word {word rest : CString} (hne : word ≠ []) (hword : ∀ c ∈ word, isspace c = false)
    (hrest : ∀ c ∈ rest.head?, isspace c = true) (size : ℕ) :
    scanf (.word size :: format) (word ++ rest) =
      if word.length < size then (scanf format rest).map (.word word :: ·) else none := by
  have hletters : ∀ c ∈ word, isWordByte c = true := by
    intro c hc
    rw [isWordByte, hword c hc]
    rfl
  have hskip : skipSpaces (word ++ rest) = word ++ rest := by
    apply skipSpaces_eq_self
    intro c hc
    obtain ⟨d, letters, rfl⟩ := List.exists_cons_of_ne_nil hne
    obtain rfl : d = c := by simpa using hc
    exact hword d List.mem_cons_self
  have hends : rest.takeWhile isWordByte = [] ∧ rest.dropWhile isWordByte = rest := by
    cases rest with
    | nil => exact ⟨rfl, rfl⟩
    | cons c rest =>
        have hc : isspace c = true := hrest c rfl
        simp [isWordByte, hc]
  have htake : (word ++ rest).takeWhile isWordByte = word := by
    rw [List.takeWhile_append_of_pos hletters, hends.1, List.append_nil]
  have hdrop : (word ++ rest).dropWhile isWordByte = rest := by
    rw [List.dropWhile_append_of_pos hletters, hends.2]
  simp only [scanf, hskip, htake, hdrop]
  rw [if_neg hne]

end Directives

end BasC
