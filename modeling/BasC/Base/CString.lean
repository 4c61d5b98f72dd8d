/-
# C strings

A `char` of a C string is any byte but NUL, so a list of such bytes is exactly what a
`char *` points at, and its end is the terminating NUL. A pointer into a string is the
cut it makes: the text before it and the text from it on.

The character classes are those of the C locale.
-/

import Mathlib.Data.List.Infix
import Mathlib.Data.List.TakeWhile
import Mathlib.Data.List.DropRight

namespace BasC

/-- A byte of a C string: any `char` but the terminating NUL. -/
def CChar : Type := { byte : UInt8 // byte ≠ 0 }
  deriving DecidableEq

/-- What a `char *` points at, without its terminating NUL. -/
abbrev CString := List CChar

namespace CChar

/-- The unsigned value of the byte. -/
def toNat (c : CChar) : ℕ := c.1.toNat

def tab : CChar := ⟨9, by decide⟩
def newline : CChar := ⟨10, by decide⟩
def carriageReturn : CChar := ⟨13, by decide⟩
def blank : CChar := ⟨32, by decide⟩
def doubleQuote : CChar := ⟨34, by decide⟩
def hash : CChar := ⟨35, by decide⟩
def singleQuote : CChar := ⟨39, by decide⟩
def openParen : CChar := ⟨40, by decide⟩
def closeParen : CChar := ⟨41, by decide⟩
def star : CChar := ⟨42, by decide⟩
def plus : CChar := ⟨43, by decide⟩
def comma : CChar := ⟨44, by decide⟩
def dash : CChar := ⟨45, by decide⟩
def dot : CChar := ⟨46, by decide⟩
def slash : CChar := ⟨47, by decide⟩
def colon : CChar := ⟨58, by decide⟩
def semicolon : CChar := ⟨59, by decide⟩
def less : CChar := ⟨60, by decide⟩
def equals : CChar := ⟨61, by decide⟩
def greater : CChar := ⟨62, by decide⟩
def question : CChar := ⟨63, by decide⟩
def openBracket : CChar := ⟨91, by decide⟩
def backslash : CChar := ⟨92, by decide⟩
def closeBracket : CChar := ⟨93, by decide⟩
def caret : CChar := ⟨94, by decide⟩
def upperX : CChar := ⟨88, by decide⟩
def lowerX : CChar := ⟨120, by decide⟩
def openBrace : CChar := ⟨123, by decide⟩
def bar : CChar := ⟨124, by decide⟩
def closeBrace : CChar := ⟨125, by decide⟩
def bang : CChar := ⟨33, by decide⟩

/-- The byte, unless it is the NUL that would end the string. -/
def ofByte? (byte : UInt8) : Option CChar :=
  if h : byte ≠ 0 then some ⟨byte, h⟩ else none

end CChar

/-- A string literal of the source. -/
def cstr (literal : String) : CString := literal.toUTF8.data.toList.filterMap CChar.ofByte?

/-- `isspace((unsigned char)c)`. -/
def isspace (c : CChar) : Bool := c.toNat == 32 || (9 ≤ c.toNat && c.toNat ≤ 13)

/-- One of the two quotes. -/
def isQuote (c : CChar) : Bool := c = CChar.singleQuote || c = CChar.doubleQuote

theorem isspace_of_isQuote {c : CChar} (hquote : isQuote c = true) : isspace c = false := by
  simp only [isQuote, Bool.or_eq_true, decide_eq_true_eq] at hquote
  rcases hquote with rfl | rfl <;> decide

/-- `strchr`: the text before the first `c`, and the text from it on. -/
def strchr : CString → CChar → Option (CString × CString)
  | [], _ => none
  | d :: text, c =>
      if d = c then some ([], d :: text)
      else (strchr text c).map fun cut => (d :: cut.1, cut.2)

/-- `strrchr`: the text before the last `c`, and the text from it on. -/
def strrchr : CString → CChar → Option (CString × CString)
  | [], _ => none
  | d :: text, c =>
      match strrchr text c with
      | some cut => some (d :: cut.1, cut.2)
      | none => if d = c then some ([], d :: text) else none

/-- `strstr`: the text before the first occurrence of `needle`, and the text from it on. -/
def strstr (needle : CString) : CString → Option (CString × CString)
  | [] => if needle.isEmpty then some ([], []) else none
  | d :: text =>
      if needle.isPrefixOf (d :: text) then some ([], d :: text)
      else (strstr needle text).map fun cut => (d :: cut.1, cut.2)

theorem strchr_eq_none_iff (text : CString) (c : CChar) : strchr text c = none ↔ c ∉ text := by
  induction text with
  | nil => simp [strchr]
  | cons d text ih =>
      by_cases hd : d = c
      · simp [strchr, hd]
      · simp [strchr, hd, ih, Ne.symm hd]

theorem strchr_eq_some {text before rest : CString} {c : CChar}
    (hfound : strchr text c = some (before, rest)) :
    text = before ++ rest ∧ c ∉ before ∧ ∃ after, rest = c :: after := by
  induction text generalizing before with
  | nil => simp [strchr] at hfound
  | cons d text ih =>
      by_cases hd : d = c
      · obtain ⟨rfl, rfl⟩ : before = [] ∧ rest = d :: text := by
          simpa [strchr, hd, eq_comm] using hfound
        exact ⟨rfl, by simp, text, by rw [hd]⟩
      · simp only [strchr, hd, if_false, Option.map_eq_some_iff, Prod.mk.injEq] at hfound
        obtain ⟨⟨inner, from_⟩, hinner, rfl, rfl⟩ := hfound
        obtain ⟨hsplit, hnot, hafter⟩ := ih hinner
        refine ⟨by simp [hsplit], ?_, hafter⟩
        simp [hnot, Ne.symm hd]

theorem strchr_append_cons {before : CString} {c : CChar} (hnot : c ∉ before) (after : CString) :
    strchr (before ++ c :: after) c = some (before, c :: after) := by
  induction before with
  | nil => simp [strchr]
  | cons d before ih =>
      rw [List.mem_cons, not_or] at hnot
      simp [strchr, Ne.symm hnot.1, ih hnot.2]

theorem strrchr_eq_none_iff (text : CString) (c : CChar) : strrchr text c = none ↔ c ∉ text := by
  induction text with
  | nil => simp [strrchr]
  | cons d text ih =>
      cases htail : strrchr text c with
      | some cut =>
          have hmem : c ∈ text := by
            by_contra hnot
            simp [ih.mpr hnot] at htail
          simp [strrchr, htail, hmem]
      | none =>
          have hnot := ih.mp htail
          by_cases hd : d = c
          · simp [strrchr, htail, hd]
          · simp [strrchr, htail, hd, Ne.symm hd, hnot]

theorem strrchr_eq_some {text before rest : CString} {c : CChar}
    (hfound : strrchr text c = some (before, rest)) :
    text = before ++ rest ∧ ∃ after, rest = c :: after ∧ c ∉ after := by
  induction text generalizing before with
  | nil => simp [strrchr] at hfound
  | cons d text ih =>
      cases htail : strrchr text c with
      | some cut =>
          obtain ⟨rfl, rfl⟩ : before = d :: cut.1 ∧ rest = cut.2 := by
            simpa [strrchr, htail, eq_comm] using hfound
          obtain ⟨hsplit, hafter⟩ := ih htail
          exact ⟨by simpa using hsplit, hafter⟩
      | none =>
          by_cases hd : d = c
          · obtain ⟨rfl, rfl⟩ : before = [] ∧ rest = d :: text := by
              simpa [strrchr, htail, hd, eq_comm] using hfound
            exact ⟨rfl, text, by rw [hd], (strrchr_eq_none_iff text c).mp htail⟩
          · simp [strrchr, htail, hd] at hfound

/-- The last occurrence is where the text last reads `c`. -/
theorem strrchr_append (before : CString) {after : CString} {c : CChar} (hnot : c ∉ after) :
    strrchr (before ++ c :: after) c = some (before, c :: after) := by
  induction before with
  | nil => simp [strrchr, (strrchr_eq_none_iff after c).mpr hnot]
  | cons d before ih => simp [strrchr, ih]

theorem strstr_eq_none {needle text : CString} (hnone : strstr needle text = none) :
    ¬ needle <:+: text := by
  induction text with
  | nil =>
      intro hoccurs
      obtain rfl := List.eq_nil_of_infix_nil hoccurs
      simp [strstr] at hnone
  | cons d text ih =>
      intro hoccurs
      simp only [strstr, List.isPrefixOf_iff_prefix] at hnone
      split at hnone
      · simp at hnone
      · rename_i hprefix
        rcases List.infix_cons_iff.mp hoccurs with hhead | htail
        · exact hprefix hhead
        · exact ih (by simpa using hnone) htail

theorem strstr_eq_some {needle text before rest : CString}
    (hfound : strstr needle text = some (before, rest)) :
    text = before ++ rest ∧ needle <+: rest := by
  induction text generalizing before with
  | nil =>
      simp only [strstr] at hfound
      split at hfound
      · rename_i hempty
        obtain ⟨rfl, rfl⟩ : before = [] ∧ rest = [] := by simpa [eq_comm] using hfound
        simp [List.isEmpty_iff.mp hempty]
      · simp at hfound
  | cons d text ih =>
      simp only [strstr, List.isPrefixOf_iff_prefix] at hfound
      split at hfound
      · rename_i hprefix
        obtain ⟨rfl, rfl⟩ : before = [] ∧ rest = d :: text := by simpa [eq_comm] using hfound
        exact ⟨rfl, hprefix⟩
      · simp only [Option.map_eq_some_iff, Prod.mk.injEq] at hfound
        obtain ⟨⟨inner, from_⟩, hinner, rfl, rfl⟩ := hfound
        obtain ⟨hsplit, hprefix⟩ := ih hinner
        exact ⟨by simp [hsplit], hprefix⟩

/-- A needle that does not occur is not found. -/
theorem strstr_eq_none_of_not_infix {needle text : CString} (hnot : ¬ needle <:+: text) :
    strstr needle text = none := by
  cases hfound : strstr needle text with
  | none => rfl
  | some cut =>
      obtain ⟨before, rest⟩ := cut
      obtain ⟨hsplit, hprefix⟩ := strstr_eq_some hfound
      exact absurd (hsplit ▸ hprefix.isInfix.trans (List.suffix_append before rest).isInfix) hnot

/-- `strstr` finds the first occurrence. -/
theorem strstr_of_first {needle before : CString}
    (hfirst : ¬ needle <:+: before ++ needle.dropLast) (after : CString) :
    strstr needle (before ++ (needle ++ after)) = some (before, needle ++ after) := by
  induction before with
  | nil =>
      have hprefix : needle.isPrefixOf (needle ++ after) = true :=
        List.isPrefixOf_iff_prefix.mpr (List.prefix_append needle after)
      cases htext : needle ++ after with
      | nil => simp_all
      | cons d text => simp_all [strstr]
  | cons d before ih =>
      have hlater : ¬ needle <:+: before ++ needle.dropLast := fun hin =>
        hfirst (hin.trans (List.suffix_cons d _).isInfix)
      have hhere : needle.isPrefixOf (d :: (before ++ (needle ++ after))) = false := by
        apply Bool.eq_false_iff.mpr
        intro hprefix
        apply hfirst
        apply List.IsPrefix.isInfix
        apply List.prefix_of_prefix_length_le (List.isPrefixOf_iff_prefix.mp hprefix)
        · refine ⟨needle.drop (needle.length - 1) ++ after, ?_⟩
          rw [List.dropLast_eq_take, List.append_assoc, ← List.append_assoc (needle.take _),
            List.take_append_drop, List.cons_append]
        · simp
          omega
      simp [strstr, hhere, ih hlater]

/-- `while (*p && isspace((unsigned char)*p)) p++;`, a loop several functions repeat. -/
def skipSpaces (p : CString) : CString := p.dropWhile isspace

/-- The loop from the end of the string that overwrites white space by NULs. -/
def dropTrailingSpaces (p : CString) : CString := p.rdropWhile isspace

theorem skipSpaces_eq_self {p : CString} (hhead : ∀ c ∈ p.head?, isspace c = false) :
    skipSpaces p = p := by
  cases p with
  | nil => rfl
  | cons c p => simp [skipSpaces, hhead c (by simp)]

/-- The skipped part is white space only. -/
theorem exists_spaces_append_skipSpaces (p : CString) :
    ∃ lead : CString, p = lead ++ skipSpaces p ∧ ∀ c ∈ lead, isspace c = true :=
  ⟨p.takeWhile isspace, (List.takeWhile_append_dropWhile).symm,
    fun _ hc => List.mem_takeWhile_imp hc⟩

theorem skipSpaces_eq_cons {p line : CString} {c : CChar} (hskip : skipSpaces p = c :: line) :
    isspace c = false ∧ (c :: line).length ≤ p.length := by
  obtain ⟨lead, hlead, -⟩ := exists_spaces_append_skipSpaces p
  have hlength := congrArg List.length hlead
  rw [hskip, List.length_append] at hlength
  have hhead := List.head?_dropWhile_not isspace p
  rw [← skipSpaces, hskip] at hhead
  exact ⟨by simpa using hhead, by omega⟩

theorem skipSpaces_append_cons (before : CString) {c : CChar} (hc : isspace c = false)
    (after : CString) : skipSpaces (before ++ c :: after) = skipSpaces before ++ c :: after := by
  unfold skipSpaces
  rw [List.dropWhile_append]
  split
  · rename_i hempty
    rw [List.isEmpty_iff.mp hempty, List.nil_append, List.dropWhile_cons_of_neg (by simp [hc])]
  · rfl

theorem skipSpaces_spaces_append {lead : CString} (hlead : ∀ c ∈ lead, isspace c = true)
    (text : CString) : skipSpaces (lead ++ text) = skipSpaces text :=
  List.dropWhile_append_of_pos hlead

theorem isspace_blank : isspace CChar.blank = true := by decide

theorem skipSpaces_cons_of_isspace {c : CChar} (hc : isspace c = true) (p : CString) :
    skipSpaces (c :: p) = skipSpaces p :=
  List.dropWhile_cons_of_pos hc

theorem skipSpaces_cons_of_not_isspace {c : CChar} (hc : isspace c = false) (p : CString) :
    skipSpaces (c :: p) = c :: p :=
  List.dropWhile_cons_of_neg (by simp [hc])

theorem skipSpaces_skipSpaces (p : CString) : skipSpaces (skipSpaces p) = skipSpaces p :=
  List.dropWhile_idempotent isspace p

/-- The dropped part is white space only. -/
theorem exists_dropTrailingSpaces_append (p : CString) :
    ∃ tail : CString, p = dropTrailingSpaces p ++ tail ∧ ∀ c ∈ tail, isspace c = true := by
  refine ⟨(p.reverse.takeWhile isspace).reverse, ?_, fun c hc => ?_⟩
  · have hsplit := List.takeWhile_append_dropWhile (p := isspace) (l := p.reverse)
    have hreverse := congrArg List.reverse hsplit
    rw [List.reverse_append, List.reverse_reverse] at hreverse
    exact hreverse.symm
  · exact List.mem_takeWhile_imp (List.mem_reverse.mp hc)

end BasC
