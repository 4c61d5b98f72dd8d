/-
# Decimal numerals

`printf` writes an `int` with `%d`, and the loops of the sources and `scanf` read one back.
The value of a run of digits is the fold that those loops compute.
-/

import BasC.Base.CString
import Mathlib.Tactic.Ring

namespace BasC

open CChar

/-- The largest `int`. -/
def intMax : ℤ := 2147483647

/-- An `int` can hold the number. -/
def FitsInt (n : ℤ) : Prop := -intMax - 1 ≤ n ∧ n ≤ intMax

instance (n : ℤ) : Decidable (FitsInt n) := inferInstanceAs (Decidable (_ ∧ _))

/-- `isdigit((unsigned char)c)`. -/
def isdigit (c : CChar) : Bool := 48 ≤ c.toNat && c.toNat ≤ 57

/-- `c - '0'`. -/
def digitValue (c : CChar) : ℕ := c.toNat - 48

/-- The last digit of a number. -/
def CChar.digit (n : ℕ) : CChar :=
  ⟨UInt8.ofNat (48 + n % 10), by
    intro hzero
    have hvalue : (48 + n % 10) % 256 = 0 := congrArg UInt8.toNat hzero
    omega⟩

/-- The number that a run of digits denotes: `num = num * 10 + (c - '0')` for each of them. -/
def digitsValue (digits : CString) : ℕ :=
  digits.foldl (fun num c => num * 10 + digitValue c) 0

/-- The digits of a number, without leading zeros. -/
def decimalNat (n : ℕ) : CString :=
  if n < 10 then [CChar.digit n] else decimalNat (n / 10) ++ [CChar.digit n]

/-- `%d` of `printf`. -/
def decimal (n : ℤ) : CString :=
  if n < 0 then dash :: decimalNat n.natAbs else decimalNat n.natAbs

theorem CChar.toNat_digit (n : ℕ) : (CChar.digit n).toNat = 48 + n % 10 := by
  show (48 + n % 10) % 256 = 48 + n % 10
  omega

theorem isdigit_digit (n : ℕ) : isdigit (CChar.digit n) = true := by
  have hmod := Nat.mod_lt n (by decide : 0 < 10)
  rw [isdigit, CChar.toNat_digit, Bool.and_eq_true, decide_eq_true_iff, decide_eq_true_iff]
  omega

theorem digitValue_digit (n : ℕ) : digitValue (CChar.digit n) = n % 10 := by
  rw [digitValue, CChar.toNat_digit, Nat.add_sub_cancel_left]

theorem digitsValue_concat (digits : CString) (c : CChar) :
    digitsValue (digits ++ [c]) = digitsValue digits * 10 + digitValue c := by
  rw [digitsValue, List.foldl_append]
  rfl

theorem decimalNat_ne_nil (n : ℕ) : decimalNat n ≠ [] := by
  rw [decimalNat]
  split <;> simp

theorem isdigit_of_mem_decimalNat {n : ℕ} {c : CChar} (hc : c ∈ decimalNat n) :
    isdigit c = true := by
  induction n using Nat.strongRec with
  | ind n ih =>
      rw [decimalNat] at hc
      split at hc
      · rw [List.mem_singleton.mp hc]
        exact isdigit_digit n
      · rename_i hlarge
        rcases List.mem_append.mp hc with hinit | hlast
        · exact ih (n / 10) (by omega) hinit
        · rw [List.mem_singleton.mp hlast]
          exact isdigit_digit n

theorem newline_notMem_decimal (n : ℤ) : newline ∉ decimal n := by
  have hdigits (m : ℕ) : newline ∉ decimalNat m := fun hmem =>
    absurd (isdigit_of_mem_decimalNat hmem) (by decide)
  rw [decimal]
  split_ifs
  · rw [List.mem_cons, not_or]
    exact ⟨by decide, hdigits _⟩
  · exact hdigits _

/-- **The digits of a number denote it.** -/
theorem digitsValue_decimalNat (n : ℕ) : digitsValue (decimalNat n) = n := by
  induction n using Nat.strongRec with
  | ind n ih =>
      rw [decimalNat]
      split
      · rename_i hsmall
        show 0 * 10 + digitValue (CChar.digit n) = n
        rw [digitValue_digit]
        omega
      · rename_i hlarge
        rw [digitsValue_concat, ih (n / 10) (by omega), digitValue_digit]
        omega

/-- The number at the beginning of a text, and the text behind its digits. -/
def scanDigits (text : CString) : Option (ℕ × CString) :=
  if text.takeWhile isdigit = [] then none
  else some (digitsValue (text.takeWhile isdigit), text.dropWhile isdigit)

/-- The number with a sign that has been read. -/
def scanSigned (sign : ℤ) (text : CString) : Option (ℤ × CString) :=
  (scanDigits text).map fun out => (sign * out.1, out.2)

/-- `%d` of `scanf`: white space, a sign, and digits. -/
def scanInt (text : CString) : Option (ℤ × CString) :=
  match skipSpaces text with
  | [] => none
  | c :: rest =>
      if c = dash then scanSigned (-1) rest
      else if c = plus then scanSigned 1 rest
      else scanSigned 1 (c :: rest)

/-- The text does not go on with a digit. -/
def EndsNumber (rest : CString) : Prop := ∀ c ∈ rest.head?, isdigit c = false

instance (rest : CString) : Decidable (EndsNumber rest) :=
  inferInstanceAs (Decidable (∀ c ∈ rest.head?, isdigit c = false))

theorem takeWhile_isdigit_append {digits rest : CString} (hdigits : ∀ c ∈ digits, isdigit c = true)
    (hrest : EndsNumber rest) :
    (digits ++ rest).takeWhile isdigit = digits ∧ (digits ++ rest).dropWhile isdigit = rest := by
  rw [List.takeWhile_append_of_pos hdigits, List.dropWhile_append_of_pos hdigits]
  cases rest with
  | nil => simp
  | cons c rest =>
      have hc : isdigit c = false := hrest c rfl
      simp [hc]

theorem scanDigits_append {digits rest : CString} (hdigits : ∀ c ∈ digits, isdigit c = true)
    (hne : digits ≠ []) (hrest : EndsNumber rest) :
    scanDigits (digits ++ rest) = some (digitsValue digits, rest) := by
  obtain ⟨htake, hdrop⟩ := takeWhile_isdigit_append hdigits hrest
  rw [scanDigits, htake, hdrop, if_neg hne]

/-- What stands behind the number does not change it. -/
theorem scanDigits_append_of_ends (text : CString) {rest : CString} (hrest : EndsNumber rest) :
    scanDigits (text ++ rest) = (scanDigits text).map fun out => (out.1, out.2 ++ rest) := by
  have hsplit := List.takeWhile_append_dropWhile (p := isdigit) (l := text)
  have hbehind : EndsNumber (text.dropWhile isdigit ++ rest) := by
    intro c hc
    cases hdrop : text.dropWhile isdigit with
    | nil =>
        rw [hdrop] at hc
        exact hrest c hc
    | cons d more =>
        rw [hdrop] at hc
        obtain rfl : d = c := Option.some.inj hc
        have hhead := List.head?_dropWhile_not isdigit text
        rw [hdrop] at hhead
        simpa using hhead
  have hdigits : ∀ c ∈ text.takeWhile isdigit, isdigit c = true := fun c hc =>
    List.mem_takeWhile_imp hc
  obtain ⟨htake, hdrop⟩ := takeWhile_isdigit_append hdigits hbehind
  rw [← List.append_assoc, hsplit] at htake hdrop
  rw [scanDigits, scanDigits, htake, hdrop]
  split <;> rfl

theorem isspace_of_isdigit {c : CChar} (hdigit : isdigit c = true) : isspace c = false := by
  rw [isdigit, Bool.and_eq_true, decide_eq_true_iff, decide_eq_true_iff] at hdigit
  rw [isspace, Bool.or_eq_false_iff, Bool.and_eq_false_iff]
  simp
  omega

theorem scanSigned_append_of_ends (sign : ℤ) (text : CString) {rest : CString}
    (hrest : EndsNumber rest) :
    scanSigned sign (text ++ rest) =
      (scanSigned sign text).map fun out => (out.1, out.2 ++ rest) := by
  rw [scanSigned, scanSigned, scanDigits_append_of_ends text hrest, Option.map_map, Option.map_map]
  rfl

theorem scanInt_cons {c : CChar} (hspace : isspace c = false) (rest : CString) :
    scanInt (c :: rest) =
      if c = dash then scanSigned (-1) rest
      else if c = plus then scanSigned 1 rest
      else scanSigned 1 (c :: rest) := by
  rw [scanInt, skipSpaces_cons_of_not_isspace hspace]

/-- A digit begins a number without a sign. -/
theorem scanInt_of_isdigit {c : CChar} (hdigit : isdigit c = true) (rest : CString) :
    scanInt (c :: rest) = scanSigned 1 (c :: rest) := by
  have hdash : c ≠ dash := by
    rintro rfl
    exact absurd hdigit (by decide)
  have hplus : c ≠ plus := by
    rintro rfl
    exact absurd hdigit (by decide)
  rw [scanInt_cons (isspace_of_isdigit hdigit), if_neg hdash, if_neg hplus]

/-- White space in front of a number is passed over. -/
theorem scanInt_skipSpaces (text : CString) : scanInt (skipSpaces text) = scanInt text := by
  rw [scanInt, scanInt, skipSpaces_skipSpaces]

theorem scanInt_cons_of_isspace {c : CChar} (hc : isspace c = true) (text : CString) :
    scanInt (c :: text) = scanInt text := by
  rw [← scanInt_skipSpaces, skipSpaces_cons_of_isspace hc, scanInt_skipSpaces]

/-- **Reading back what was printed.** -/
theorem scanInt_decimal (n : ℤ) {rest : CString} (hrest : EndsNumber rest) :
    scanInt (decimal n ++ rest) = some (n, rest) := by
  have hdigits : scanDigits (decimalNat n.natAbs ++ rest) = some (n.natAbs, rest) := by
    have hscan := scanDigits_append (fun _ => isdigit_of_mem_decimalNat)
      (decimalNat_ne_nil n.natAbs) hrest
    rwa [digitsValue_decimalNat] at hscan
  rw [decimal]
  split
  · rename_i hneg
    have hvalue : -1 * (n.natAbs : ℤ) = n := by omega
    rw [List.cons_append, scanInt_cons (by decide), if_pos rfl, scanSigned, hdigits,
      Option.map_some, hvalue]
  · rename_i hpos
    have hvalue : 1 * (n.natAbs : ℤ) = n := by omega
    obtain ⟨c, more, hmore⟩ := List.exists_cons_of_ne_nil (decimalNat_ne_nil n.natAbs)
    have hc : isdigit c = true :=
      isdigit_of_mem_decimalNat (n := n.natAbs) (hmore ▸ List.mem_cons_self)
    rw [hmore, List.cons_append] at hdigits ⊢
    rw [scanInt_of_isdigit hc, scanSigned, hdigits, Option.map_some, hvalue]

/-- What stands behind a number, and does not begin one, does not change it. -/
theorem scanInt_append_of_ends (text : CString) {c : CChar} {rest : CString}
    (hspace : isspace c = false) (hdigit : isdigit c = false) (hdash : c ≠ dash)
    (hplus : c ≠ plus) :
    scanInt (text ++ c :: rest) = (scanInt text).map fun out => (out.1, out.2 ++ c :: rest) := by
  have hrest : EndsNumber (c :: rest) := fun d hd => by rwa [← Option.some.inj hd]
  rw [← scanInt_skipSpaces (text ++ c :: rest), ← scanInt_skipSpaces text,
    skipSpaces_append_cons text hspace]
  cases hskip : skipSpaces text with
  | nil =>
      have hnone := scanSigned_append_of_ends 1 [] hrest
      rw [List.nil_append] at hnone ⊢
      rw [scanInt_cons hspace, if_neg hdash, if_neg hplus, hnone]
      rfl
  | cons d more =>
      have hd : isspace d = false := (skipSpaces_eq_cons hskip).1
      rw [List.cons_append, scanInt_cons hd, scanInt_cons hd,
        scanSigned_append_of_ends _ more hrest, scanSigned_append_of_ends _ more hrest,
        ← List.cons_append,
        scanSigned_append_of_ends _ (d :: more) hrest]
      split_ifs <;> rfl

end BasC
