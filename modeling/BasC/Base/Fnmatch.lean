/-
# `fnmatch`

The pattern matcher of the C library with no flags set, as POSIX describes it, in the C
locale: `?` is any byte, `*` any string, a bracket expression a set of bytes, and a
backslash takes the next pattern byte literally. Neither a slash nor a leading dot of
the string is special.

A pattern is read into items first and the items are then matched against the string,
so both halves recurse on their own list.
-/

import BasC.Base.CString
import Mathlib.Data.List.Basic

namespace BasC

open CChar

namespace Fnmatch

/-- A member of a bracket expression. -/
inductive Member
  | range (first last : CChar)
  | charClass (name : CString)

/-- One item of a pattern. -/
inductive Item
  | letter (c : CChar)
  | anyByte
  | anyString
  | bracket (negated : Bool) (members : List Member)
  /-- A backslash with nothing behind it matches nothing. -/
  | never

/-- The byte is in `[first, last]`. -/
def between (first last : ℕ) (c : CChar) : Bool := first ≤ c.toNat && c.toNat ≤ last

/-- `isalpha`, `isdigit` and the other classes by their names, in the C locale. -/
def inClass (name : CString) (c : CChar) : Bool :=
  let upper := between 65 90 c
  let lower := between 97 122 c
  let digit := between 48 57 c
  if name = cstr "alpha" then upper || lower
  else if name = cstr "digit" then digit
  else if name = cstr "alnum" then upper || lower || digit
  else if name = cstr "upper" then upper
  else if name = cstr "lower" then lower
  else if name = cstr "space" then isspace c
  else if name = cstr "blank" then c.toNat == 32 || c.toNat == 9
  else if name = cstr "punct" then between 33 126 c && !(upper || lower || digit)
  else if name = cstr "print" then between 32 126 c
  else if name = cstr "graph" then between 33 126 c
  else if name = cstr "cntrl" then c.toNat < 32 || c.toNat == 127
  else if name = cstr "xdigit" then digit || between 65 70 c || between 97 102 c
  else false

def Member.contains (c : CChar) : Member → Bool
  | .range first last => between first.toNat last.toNat c
  | .charClass name => inClass name c

/-- The name of a class, up to the `:]` that closes it. -/
def className : CString → Option (CString × CString)
  | c :: d :: text =>
      if c = colon ∧ d = closeBracket then some ([], text)
      else if between 97 122 c then (className (d :: text)).map fun cut => (c :: cut.1, cut.2)
      else none
  | _ => none

/-- One end of a range: an escaped byte, a collating symbol `[.c.]`, an equivalence class
`[=c=]`, or the byte itself. -/
def rangeEnd : CString → Option (CChar × CString)
  | [] => none
  | c :: text =>
      if c = backslash then
        match text with
        | [] => none
        | d :: text => some (d, text)
      else
        match text with
        | kind :: d :: kind' :: close :: rest =>
            if c = openBracket ∧ (kind = dot ∨ kind = equals) ∧ kind' = kind ∧
                close = closeBracket then
              some (d, rest)
            else some (c, text)
        | _ => some (c, text)

/-- The members of a bracket expression and the pattern behind it; `none` when it is not
closed. The first argument bounds the number of members by the length of the pattern, the
second says whether a `]` here is still an ordinary member. -/
def members : ℕ → Bool → CString → Option (List Member × CString)
  | 0, _, _ => none
  | _, _, [] => none
  | n + 1, first, c :: text =>
      if c = closeBracket ∧ first = false then some ([], text)
      else
        match (if c = openBracket ∧ text.head? = some colon then className text.tail else none) with
        | some (name, rest) =>
            (members n false rest).map fun cut => (.charClass name :: cut.1, cut.2)
        | none =>
            match rangeEnd (c :: text) with
            | none => none
            | some (low, rest) =>
                if rest.head? = some dash ∧ rest.tail ≠ [] ∧
                    rest.tail.head? ≠ some closeBracket then
                  match rangeEnd rest.tail with
                  | none => none
                  | some (high, rest) =>
                      (members n false rest).map fun cut => (.range low high :: cut.1, cut.2)
                else (members n false rest).map fun cut => (.range low low :: cut.1, cut.2)

/-- A bracket expression behind its `[`. -/
def bracketItem (n : ℕ) (text : CString) : Option (Item × CString) :=
  if text.head? = some bang ∨ text.head? = some caret then
    (members n true text.tail).map fun cut => (.bracket true cut.1, cut.2)
  else (members n true text).map fun cut => (.bracket false cut.1, cut.2)

/-- The items of a pattern. The first argument bounds the number of items by the length
of the pattern. -/
def items : ℕ → CString → List Item
  | 0, _ => []
  | _, [] => []
  | n + 1, c :: text =>
      if c = star then .anyString :: items n text
      else if c = question then .anyByte :: items n text
      else if c = backslash then
        match text with
        | [] => [.never]
        | d :: text => .letter d :: items n text
      else if c = openBracket then
        match bracketItem (n + 1) text with
        | some (item, rest) => item :: items n rest
        -- an unclosed bracket stands for itself
        | none => .letter c :: items n text
      else .letter c :: items n text

/-- The items match the whole string. -/
def accepts : List Item → CString → Bool
  | [], string => string.isEmpty
  | .anyString :: rest, string => string.tails.any (accepts rest)
  | .letter d :: rest, string =>
      match string with
      | [] => false
      | c :: string => c == d && accepts rest string
  | .anyByte :: rest, string =>
      match string with
      | [] => false
      | _ :: string => accepts rest string
  | .bracket negated members :: rest, string =>
      match string with
      | [] => false
      | c :: string => (members.any (Member.contains c) != negated) && accepts rest string
  | .never :: _, _ => false

theorem className_length_lt {text name rest : CString}
    (hname : className text = some (name, rest)) : rest.length < text.length := by
  fun_induction className text generalizing name with
  | case1 c d text hclose =>
      obtain ⟨-, rfl⟩ := Prod.mk.inj (Option.some.inj hname)
      simp only [List.length_cons]
      omega
  | case2 c d text hclose hletter ih =>
      obtain ⟨⟨name', rest'⟩, hcut, hpair⟩ := Option.map_eq_some_iff.mp hname
      obtain ⟨-, rfl⟩ := Prod.mk.inj hpair
      exact (ih hcut).trans (Nat.lt_succ_self _)
  | case3 c d text hclose hletter => cases hname
  | case4 text hshort => cases hname

theorem rangeEnd_length_lt {text rest : CString} {c : CChar}
    (hend : rangeEnd text = some (c, rest)) : rest.length < text.length := by
  unfold rangeEnd at hend
  split at hend
  · cases hend
  · split at hend
    · split at hend
      · cases hend
      · obtain ⟨-, rfl⟩ := Prod.mk.inj (Option.some.inj hend)
        simp only [List.length_cons]
        omega
    · split at hend
      · split at hend
        · obtain ⟨-, rfl⟩ := Prod.mk.inj (Option.some.inj hend)
          simp only [List.length_cons]
          omega
        · obtain ⟨-, rfl⟩ := Prod.mk.inj (Option.some.inj hend)
          exact Nat.lt_succ_self _
      · obtain ⟨-, rfl⟩ := Prod.mk.inj (Option.some.inj hend)
        exact Nat.lt_succ_self _

/-- One turn of `members`: it comes to an end, or reads one member and goes on with a
shorter pattern. Which of the two does not depend on the bound. -/
theorem members_succ (first : Bool) (c : CChar) (text : CString) :
    (∃ out, (∀ n, members (n + 1) first (c :: text) = out) ∧
        ∀ list rest, out = some (list, rest) → rest.length ≤ text.length) ∨
      ∃ member rest, rest.length ≤ text.length ∧ ∀ n, members (n + 1) first (c :: text) =
        (members n false rest).map fun cut => (member :: cut.1, cut.2) := by
  by_cases hclose : c = closeBracket ∧ first = false
  · refine .inl ⟨some ([], text), fun n => by simp only [members, if_pos hclose], ?_⟩
    intro list rest hout
    obtain ⟨-, rfl⟩ := Prod.mk.inj (Option.some.inj hout)
    exact le_rfl
  · cases hclass : (if c = openBracket ∧ text.head? = some colon then className text.tail
        else none) with
    | some cut =>
        obtain ⟨name, rest⟩ := cut
        refine .inr ⟨.charClass name, rest, ?_, fun n => by
          simp only [members, if_neg hclose, hclass]⟩
        split at hclass
        · have hshort := className_length_lt hclass
          rw [List.length_tail] at hshort
          omega
        · cases hclass
    | none =>
        cases hlow : rangeEnd (c :: text) with
        | none =>
            exact .inl ⟨none, fun n => by simp only [members, if_neg hclose, hclass, hlow],
              fun list rest hout => by cases hout⟩
        | some cut =>
            obtain ⟨low, rest⟩ := cut
            have hshort := rangeEnd_length_lt hlow
            rw [List.length_cons] at hshort
            by_cases hdash : rest.head? = some dash ∧ rest.tail ≠ [] ∧
                rest.tail.head? ≠ some closeBracket
            · cases hhigh : rangeEnd rest.tail with
              | none =>
                  exact .inl ⟨none, fun n => by
                    simp only [members, if_neg hclose, hclass, hlow, if_pos hdash, hhigh],
                    fun list rest hout => by cases hout⟩
              | some cut =>
                  obtain ⟨high, last⟩ := cut
                  have hlast := rangeEnd_length_lt hhigh
                  rw [List.length_tail] at hlast
                  exact .inr ⟨.range low high, last, by omega, fun n => by
                    simp only [members, if_neg hclose, hclass, hlow, if_pos hdash, hhigh]⟩
            · exact .inr ⟨.range low low, rest, by omega, fun n => by
                simp only [members, if_neg hclose, hclass, hlow, if_neg hdash]⟩

theorem members_nil (n : ℕ) (first : Bool) : members n first [] = none := by
  cases n <;> rfl

/-- A bound of the pattern's length is enough members. -/
theorem members_of_length_le {n m : ℕ} {first : Bool} {text : CString} (hn : text.length ≤ n)
    (hm : text.length ≤ m) : members n first text = members m first text := by
  induction n generalizing m first text with
  | zero =>
      obtain rfl := List.eq_nil_of_length_eq_zero (Nat.le_zero.mp hn)
      rw [members_nil, members_nil]
  | succ n ih =>
      cases text with
      | nil => rw [members_nil, members_nil]
      | cons c text =>
          rw [List.length_cons] at hn hm
          obtain ⟨m, rfl⟩ := Nat.exists_eq_add_of_lt (Nat.zero_lt_of_lt hm)
          rw [Nat.zero_add] at hm ⊢
          rcases members_succ first c text with ⟨out, hout, -⟩ | ⟨member, rest, hshort, hnext⟩
          · rw [hout, hout]
          · rw [hnext, hnext, ih (m := m) (by omega) (by omega)]

theorem members_length_lt {n : ℕ} {first : Bool} {text rest : CString} {list : List Member}
    (hmembers : members n first text = some (list, rest)) : rest.length < text.length := by
  induction n generalizing first text list with
  | zero => cases hmembers
  | succ n ih =>
      cases text with
      | nil => cases hmembers
      | cons c text =>
          rw [List.length_cons]
          rcases members_succ first c text with ⟨out, hout, hle⟩ | ⟨member, next, hshort, hnext⟩
          · have hrest := hle list rest ((hout n).symm.trans hmembers)
            omega
          · rw [hnext n] at hmembers
            obtain ⟨⟨list', rest'⟩, hcut, hpair⟩ := Option.map_eq_some_iff.mp hmembers
            obtain ⟨-, rfl⟩ := Prod.mk.inj hpair
            have hrest := ih hcut
            omega

theorem bracketItem_of_length_le {n m : ℕ} {text : CString} (hn : text.length ≤ n)
    (hm : text.length ≤ m) : bracketItem n text = bracketItem m text := by
  have htail : text.tail.length ≤ text.length := by simp
  unfold bracketItem
  rw [members_of_length_le hn hm, members_of_length_le (htail.trans hn) (htail.trans hm)]

theorem bracketItem_length_le {n : ℕ} {text rest : CString} {item : Item}
    (hitem : bracketItem n text = some (item, rest)) : rest.length ≤ text.length := by
  unfold bracketItem at hitem
  split at hitem
  · obtain ⟨⟨list, rest'⟩, hcut, hpair⟩ := Option.map_eq_some_iff.mp hitem
    obtain ⟨-, rfl⟩ := Prod.mk.inj hpair
    have hlt : rest'.length < text.tail.length := members_length_lt hcut
    rw [List.length_tail] at hlt
    show rest'.length ≤ text.length
    omega
  · obtain ⟨⟨list, rest'⟩, hcut, hpair⟩ := Option.map_eq_some_iff.mp hitem
    obtain ⟨-, rfl⟩ := Prod.mk.inj hpair
    exact (members_length_lt hcut).le

/-- A bound of the pattern's length is enough items. -/
theorem items_of_length_le {n m : ℕ} {text : CString} (hn : text.length ≤ n)
    (hm : text.length ≤ m) : items n text = items m text := by
  induction n generalizing m text with
  | zero =>
      obtain rfl := List.eq_nil_of_length_eq_zero (Nat.le_zero.mp hn)
      cases m <;> rfl
  | succ n ih =>
      cases text with
      | nil => cases m <;> rfl
      | cons c text =>
          rw [List.length_cons] at hn hm
          obtain ⟨m, rfl⟩ := Nat.exists_eq_add_of_lt (Nat.zero_lt_of_lt hm)
          rw [Nat.zero_add] at hm ⊢
          have htext : items n text = items m text := ih (by omega) (by omega)
          have hbracket : bracketItem (n + 1) text = bracketItem (m + 1) text :=
            bracketItem_of_length_le (by omega) (by omega)
          simp only [items, htext, hbracket]
          split
          · rfl
          · split
            · rfl
            · split
              · cases text with
                | nil => rfl
                | cons d text =>
                    rw [List.length_cons] at hn hm
                    have hrest : items n text = items m text := ih (by omega) (by omega)
                    simp only [hrest]
              · split
                · cases hitem : bracketItem (m + 1) text with
                  | none => rfl
                  | some cut =>
                      have hle : cut.2.length ≤ text.length := bracketItem_length_le hitem
                      have hrest : items n cut.2 = items m cut.2 := ih (by omega) (by omega)
                      simp only [hrest]
                · rfl

end Fnmatch

/-- `fnmatch(pattern, string, 0) == 0`. -/
def fnmatch (pattern string : CString) : Bool :=
  Fnmatch.accepts (Fnmatch.items pattern.length pattern) string

section FirstByte

variable {c : CChar} (text name : CString)

/-- A byte that is not special matches itself. -/
theorem fnmatch_cons (hwild : c ≠ star ∧ c ≠ question ∧ c ≠ openBracket)
    (hescape : c ≠ backslash) : fnmatch (c :: text) name =
      (decide (name.head? = some c) && fnmatch text name.tail) := by
  obtain ⟨hstar, hquestion, hbracket⟩ := hwild
  have hitems : Fnmatch.items (c :: text).length (c :: text) =
      .letter c :: Fnmatch.items text.length text := by
    simp [Fnmatch.items, hstar, hquestion, hescape, hbracket]
  rw [fnmatch, hitems]
  cases name with
  | nil => rfl
  | cons d name => simp [Fnmatch.accepts, fnmatch, beq_eq_decide]

/-- A backslash makes the next byte match itself. -/
theorem fnmatch_backslash_cons : fnmatch (backslash :: c :: text) name =
    (decide (name.head? = some c) && fnmatch text name.tail) := by
  have hitems : Fnmatch.items (backslash :: c :: text).length (backslash :: c :: text) =
      .letter c :: Fnmatch.items text.length text := by
    have hfuel : Fnmatch.items (text.length + 1) text = Fnmatch.items text.length text :=
      Fnmatch.items_of_length_le (by omega) le_rfl
    have hne : backslash ≠ star ∧ backslash ≠ question := by decide
    simp [Fnmatch.items, hne, hfuel]
  rw [fnmatch, hitems]
  cases name with
  | nil => rfl
  | cons d name => simp [Fnmatch.accepts, fnmatch, beq_eq_decide]

/-- A backslash with nothing behind it matches nothing. -/
theorem fnmatch_backslash : fnmatch [backslash] name = false := by
  have hitems : Fnmatch.items [backslash].length [backslash] = [.never] := by
    have hne : backslash ≠ star ∧ backslash ≠ question := by decide
    simp [Fnmatch.items, hne]
  rw [fnmatch, hitems, Fnmatch.accepts]

end FirstByte

example : fnmatch (cstr "[!a-c]*.\\*") (cstr "d.*") = true := by decide +kernel

example : fnmatch (cstr "[[:digit:]x]?") (cstr "ab") = false := by decide +kernel

end BasC
