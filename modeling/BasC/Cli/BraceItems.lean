/-
# The items of a brace pair

`prefix{i1,...,in}suffix` is to stand for the `n` words `prefix ik suffix`. The item loop of
`expand_brace` ends where its content ends: an empty item at the front or in the middle has a
comma behind it and is kept, an empty item at the end has nothing behind it and is lost.
-/

import BasC.Cli.ArgsExpansion

namespace BasC

open CChar Lib

/-- A byte of a plain item: no comma, no brace, no quote, no white space. -/
def isItemByte (c : CChar) : Bool :=
  !(c = comma || c = openBrace || c = closeBrace || isQuote c || isspace c)

theorem isItemByte_eq_true_iff (c : CChar) : isItemByte c = true ↔
    c ≠ comma ∧ c ≠ openBrace ∧ c ≠ closeBrace ∧ isQuote c = false ∧ isspace c = false := by
  simp [isItemByte, and_assoc]

/-- A word `prefix{i1,...,in}suffix` with at least two plain items and one brace pair. -/
structure BraceWord where
  before : CString
  items : List CString
  after : CString
  before_plain : openBrace ∉ before ∧ closeBrace ∉ before
  items_plain : ∀ item ∈ items, ∀ c ∈ item, isItemByte c = true
  two_items : 2 ≤ items.length
  after_plain : openBrace ∉ after ∧ closeBrace ∉ after

namespace BraceWord

/-- What stands between the braces. -/
def content (word : BraceWord) : CString := [comma].intercalate word.items

/-- The word as it is written. -/
def text (word : BraceWord) : CString :=
  word.before ++ openBrace :: (word.content ++ closeBrace :: word.after)

/-- The words it is to stand for. -/
def words (word : BraceWord) : List CString :=
  word.items.map fun item => word.before ++ item ++ word.after

end BraceWord

/-- A plain item is read up to the comma behind it, or to the end. -/
theorem braceItem_plain {item rest : CString} (hplain : ∀ c ∈ item, isItemByte c = true)
    (hrest : ∀ c ∈ rest.head?, c = comma) : braceItem none (item ++ rest) = (item, rest) := by
  induction item with
  | nil =>
      cases rest with
      | nil => rfl
      | cons c rest =>
          obtain rfl := hrest c rfl
          rfl
  | cons c item ih =>
      obtain ⟨hcomma, -, -, hquote, -⟩ := (isItemByte_eq_true_iff c).mp (hplain c (by simp))
      have hone : ¬ (c = singleQuote ∨ c = doubleQuote) := by simpa [isQuote] using hquote
      have htail := ih fun d hd => hplain d (by simp [hd])
      rw [List.cons_append, braceItem, if_neg hone, if_neg hcomma, htail]

/-- There is no white space to skip in front of a plain item. -/
theorem skipSpaces_of_plain {item : CString} (hplain : ∀ c ∈ item, isItemByte c = true) :
    skipSpaces item = item := by
  apply skipSpaces_eq_self
  intro c hc
  exact ((isItemByte_eq_true_iff c).mp (hplain c (List.mem_of_mem_head? hc))).2.2.2.2

theorem skipSpaces_append_comma {item : CString} (hplain : ∀ c ∈ item, isItemByte c = true)
    (rest : CString) : skipSpaces (item ++ comma :: rest) = item ++ comma :: rest := by
  cases item with
  | nil => exact skipSpaces_cons_of_not_isspace (by decide) rest
  | cons c item =>
      exact skipSpaces_cons_of_not_isspace
        ((isItemByte_eq_true_iff c).mp (hplain c (by simp))).2.2.2.2 _

/-- An item with a comma behind it is kept, be it empty or not. -/
theorem braceItems_append_comma {item : CString} (hplain : ∀ c ∈ item, isItemByte c = true)
    (rest : CString) : braceItems (item ++ comma :: rest) = item :: braceItems rest := by
  obtain ⟨c, text, hcons⟩ : ∃ c text, item ++ comma :: rest = c :: text := by
    cases item with
    | nil => exact ⟨_, _, rfl⟩
    | cons c item => exact ⟨_, _, rfl⟩
  have hskip := skipSpaces_append_comma hplain rest
  have hitem := braceItem_plain hplain fun d (hd : d ∈ (comma :: rest).head?) =>
    (Option.some.inj hd).symm
  rw [braceItems_of_skipSpaces (hskip.trans hcons), ← hcons, hitem]
  simp

/-- The last item is kept exactly when it is not empty. -/
theorem braceItems_of_plain {item : CString} (hplain : ∀ c ∈ item, isItemByte c = true) :
    braceItems item = if item = [] then [] else [item] := by
  cases item with
  | nil =>
      rw [braceItems]
      rfl
  | cons c item =>
      have hitem := @braceItem_plain (c :: item) [] hplain (by simp)
      rw [List.append_nil] at hitem
      rw [braceItems_of_skipSpaces (skipSpaces_of_plain hplain), hitem]
      simp

/-- The items of a list of plain ones: all of them, less the last if it is empty. -/
theorem braceItems_intercalate {items : List CString} (hne : items ≠ [])
    (hplain : ∀ item ∈ items, ∀ c ∈ item, isItemByte c = true) :
    braceItems ([comma].intercalate items) =
      if items.getLast hne = [] then items.dropLast else items := by
  induction items with
  | nil => exact absurd rfl hne
  | cons item items ih =>
      cases items with
      | nil =>
          rw [List.intercalate_singleton, braceItems_of_plain (hplain item (by simp))]
          simp
      | cons next items =>
          have hrest := ih (List.cons_ne_nil _ _) fun item hitem => hplain item (by simp [hitem])
          rw [List.intercalate_cons_cons, List.append_assoc, List.singleton_append,
            braceItems_append_comma (hplain item (by simp)), hrest]
          simp only [List.getLast_cons_cons, List.dropLast_cons_cons]
          split <;> rfl

theorem closeBrace_not_mem_intercalate {items : List CString}
    (hplain : ∀ item ∈ items, ∀ c ∈ item, isItemByte c = true) :
    closeBrace ∉ [comma].intercalate items := by
  induction items with
  | nil => simp
  | cons item items ih =>
      have hitem : closeBrace ∉ item := fun hmem =>
        ((isItemByte_eq_true_iff _).mp (hplain item (by simp) _ hmem)).2.2.1 rfl
      cases items with
      | nil => rwa [List.intercalate_singleton]
      | cons next items =>
          have hrest := ih fun item hitem => hplain item (by simp [hitem])
          have hcomma : closeBrace ≠ comma := by decide
          rw [List.intercalate_cons_cons]
          simp [hitem, hrest, hcomma]

namespace BraceWord

variable (word : BraceWord)

theorem items_ne_nil : word.items ≠ [] := by
  intro hnil
  have htwo := word.two_items
  simp [hnil] at htwo

/-- The braces found are the ones written. -/
theorem expandBrace_text : expandBrace word.text =
    (braceItems word.content).map fun item => word.before ++ item ++ word.after := by
  have hclose : closeBrace ∉ openBrace :: word.content := by
    have hcontent : closeBrace ∉ word.content := closeBrace_not_mem_intercalate word.items_plain
    have hne : closeBrace ≠ openBrace := by decide
    simp [hcontent, hne]
  have hstart := strchr_append_cons word.before_plain.1 (word.content ++ closeBrace :: word.after)
  have hend := strchr_append_cons hclose word.after
  rw [List.cons_append] at hend
  simp only [expandBrace, text, hstart, hend, List.tail_cons]

/-- All words are there, less the last if its item is empty. -/
theorem expandBrace_text_eq : expandBrace word.text =
    if word.items.getLast word.items_ne_nil = [] then word.words.dropLast else word.words := by
  have hitems := braceItems_intercalate word.items_ne_nil word.items_plain
  rw [expandBrace_text, content, hitems]
  split
  · rw [words, List.map_dropLast]
  · rfl

end BraceWord

/-- The argument is expanded to exactly these texts: they are its brace alternatives, and the
second pass adds one after the other whatever was there before. -/
def ExpandsExactly (arg : CString) (texts : List CString) : Prop :=
  expandBrace arg = texts ∧
    ∀ env out, addArg env out arg = texts.foldl (addWildcard env) out

/-- **When brace expansion keeps every alternative.** It does exactly when the last item is
not empty; an empty item in another place is kept. -/
theorem expandsExactly_iff (word : BraceWord) :
    ExpandsExactly word.text word.words ↔ word.items.getLast? ≠ some [] := by
  have hlast := List.getLast?_eq_some_getLast word.items_ne_nil
  have hexpand := word.expandBrace_text_eq
  rw [hlast, ne_eq, Option.some.injEq]
  constructor
  · rintro ⟨hall, -⟩ hempty
    rw [if_pos hempty] at hexpand
    have hlength := congrArg List.length (hexpand.symm.trans hall)
    have htwo := word.two_items
    simp only [List.length_dropLast, BraceWord.words, List.length_map] at hlength
    omega
  · intro hkept
    rw [if_neg hkept] at hexpand
    refine ⟨hexpand, fun env out => ?_⟩
    have hne : word.words ≠ [] := by simpa [BraceWord.words] using word.items_ne_nil
    rw [addArg_eq, alternatives_eq, hexpand, if_neg hne]

/-- `{a,}` expands to `a` only. -/
theorem expandsExactly_trailing_empty :
    ¬ ∀ word : BraceWord, ExpandsExactly word.text word.words := by
  intro hall
  have hexpand := (hall ⟨[], [cstr "a", []], [], by decide, by decide, by decide, by decide⟩).1
  have hcode : expandBrace (cstr "{a,}") = [cstr "a"] := by
    have hword := BraceWord.expandBrace_text_eq
      ⟨[], [cstr "a", []], [], by decide, by decide, by decide, by decide⟩
    exact hword
  exact absurd (hcode.symm.trans hexpand) (by decide)

end BasC
