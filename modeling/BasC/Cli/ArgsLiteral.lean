/-
# Words that need no expansion

The second pass of `args_parse` gets words without their quotes. This module determines
the words that it keeps as they are, and proves that it treats words alike however their
wildcards and braces were written.
-/

import BasC.Cli.ArgsWords

namespace BasC

open CChar Lib

/-- One turn of the outer loop of `expand_brace`. -/
theorem braceItems_of_skipSpaces {content text : CString} {c : CChar}
    (hskip : skipSpaces content = c :: text) :
    braceItems content = (braceItem none (c :: text)).1 ::
      if (braceItem none (c :: text)).2.head? = some comma then
        braceItems (braceItem none (c :: text)).2.tail
      else [] := by
  rw [braceItems]
  split
  · rename_i hnil
    rw [hskip] at hnil
    cases hnil
  · rename_i c' text' hcons
    obtain ⟨rfl, rfl⟩ := List.cons.inj (hskip.symm.trans hcons)
    split
    · rename_i hnil
      simp [hnil]
    · rename_i d rest hrest
      simp [hrest]

theorem length_of_mem_braceItems {content item : CString} (hitem : item ∈ braceItems content) :
    item.length ≤ content.length := by
  fun_induction braceItems content with
  | case1 content hskip => simp at hitem
  | case2 content c text hskip hrest =>
      obtain ⟨-, hlength⟩ := skipSpaces_eq_cons hskip
      have hsplit := congrArg List.length (braceItem_append none (c :: text))
      obtain rfl : item = (braceItem none (c :: text)).1 := by simpa using hitem
      rw [List.length_append] at hsplit
      omega
  | case3 content c text hskip d rest hrest ih =>
      obtain ⟨-, hlength⟩ := skipSpaces_eq_cons hskip
      have hsplit := congrArg List.length (braceItem_append none (c :: text))
      rw [hrest, List.length_append, List.length_cons] at hsplit
      rcases List.mem_cons.mp hitem with rfl | hitem
      · omega
      · split at hitem
        · have htail := ih hitem
          omega
        · simp at hitem

/-- An alternative has lost at least the two braces. -/
theorem length_lt_of_mem_expandBrace {pattern text : CString}
    (htext : text ∈ expandBrace pattern) : text.length < pattern.length := by
  unfold expandBrace at htext
  cases hopen : strchr pattern openBrace with
  | none => simp [hopen] at htext
  | some cut =>
      obtain ⟨before, braceStart⟩ := cut
      obtain ⟨hpattern, -, inner, rfl⟩ := strchr_eq_some hopen
      simp only [hopen] at htext
      cases hclose : strchr (openBrace :: inner) closeBrace with
      | none => simp [hclose] at htext
      | some cut =>
          obtain ⟨content, braceEnd⟩ := cut
          obtain ⟨hinner, -, suffix, rfl⟩ := strchr_eq_some hclose
          simp only [hclose, List.mem_map, List.tail_cons] at htext
          obtain ⟨item, hitem, rfl⟩ := htext
          have hshort := length_of_mem_braceItems hitem
          cases content with
          | nil =>
              have hbrace : openBrace = closeBrace := (List.cons.inj hinner).1
              exact absurd hbrace (by decide)
          | cons c content =>
              have hlength := congrArg List.length hinner
              have htotal := congrArg List.length hpattern
              simp only [List.length_append, List.length_cons, List.tail_cons] at *
              omega

/-- A byte that expansion gives a meaning to. -/
def isExpansionByte (c : CChar) : Bool := isWildcardByte c || c = openBrace

theorem containsWildcard_eq (arg : CString) : containsWildcard arg = arg.any isWildcardByte := by
  have hany : arg.any isWildcardByte = true ↔ star ∈ arg ∨ question ∈ arg ∨ openBracket ∈ arg := by
    simp only [List.any_eq_true, isWildcardByte, Bool.or_eq_true, decide_eq_true_eq]
    constructor
    · rintro ⟨c, hc, (rfl | rfl) | rfl⟩
      · exact .inl hc
      · exact .inr (.inl hc)
      · exact .inr (.inr hc)
    · rintro (hc | hc | hc)
      · exact ⟨_, hc, .inl (.inl rfl)⟩
      · exact ⟨_, hc, .inl (.inr rfl)⟩
      · exact ⟨_, hc, .inr rfl⟩
  have hsome : ∀ c, (strchr arg c).isSome = true ↔ c ∈ arg := by
    intro c
    rw [Option.isSome_iff_ne_none, ne_eq, strchr_eq_none_iff, not_not]
  rw [Bool.eq_iff_iff, hany, containsWildcard]
  simp only [hsome, Bool.if_true_left, Bool.or_eq_true, decide_eq_true_eq, or_assoc]

/-- The second pass keeps the word as it is, without asking for any file names: it has no
brace pair with an item in it, and no wildcard that could be looked up. -/
def KeptAsIs (env : ArgsEnv) (arg : CString) : Prop :=
  expandBrace arg = [] ∧ (env.enumFunc = none ∨ containsWildcard arg = false)

theorem expandBrace_eq_nil_of_not_containsBrace {arg : CString}
    (hbrace : containsBrace arg = false) : expandBrace arg = [] := by
  have hnone : strchr arg openBrace = none := by simpa [containsBrace] using hbrace
  simp [expandBrace, hnone]

theorem alternatives_eq (arg : CString) :
    alternatives arg = if expandBrace arg = [] then [arg] else expandBrace arg := by
  unfold alternatives
  cases hbrace : containsBrace arg with
  | false => simp [expandBrace_eq_nil_of_not_containsBrace hbrace]
  | true => cases hexpand : expandBrace arg <;> rfl

/-- A word is its only alternative exactly when it has no brace pair with an item in it. -/
theorem alternatives_eq_self_iff (arg : CString) :
    alternatives arg = [arg] ↔ expandBrace arg = [] := by
  rw [alternatives_eq]
  constructor
  · intro hself
    by_contra hne
    rw [if_neg hne] at hself
    have hlt : arg.length < arg.length := length_lt_of_mem_expandBrace (by rw [hself]; simp)
    exact absurd hlt (by simp)
  · intro hnil
    rw [if_pos hnil]

theorem alternatives_ne_nil (arg : CString) : alternatives arg ≠ [] := by
  rw [alternatives_eq]
  split
  · simp
  · assumption

theorem wildcardWords_ne_nil (env : ArgsEnv) (arg : CString) : wildcardWords env arg ≠ [] := by
  unfold wildcardWords
  split
  · rename_i hfound
    simp only [Bool.and_eq_true, decide_eq_true_eq] at hfound
    exact List.ne_nil_of_length_pos hfound.2
  · simp

/-- No raw word disappears in expansion. -/
theorem expandedWords_ne_nil (env : ArgsEnv) (arg : CString) : expandedWords env arg ≠ [] := by
  obtain ⟨text, texts, htexts⟩ := List.exists_cons_of_ne_nil (alternatives_ne_nil arg)
  simp [expandedWords, htexts, wildcardWords_ne_nil]

/-- A text is looked up exactly when it has a wildcard and there is a function to ask. -/
theorem wildcardCalls_eq_nil_iff (env : ArgsEnv) (arg : CString) :
    wildcardCalls env arg = [] ↔ env.enumFunc = none ∨ containsWildcard arg = false := by
  unfold wildcardCalls expandWildcard
  cases henum : env.enumFunc with
  | none => simp
  | some enumFunc =>
      cases hwild : containsWildcard arg with
      | false => simp
      | true =>
          simp only [if_true, reduceCtorEq, Bool.true_eq_false, or_self, iff_false]
          split <;> exact List.cons_ne_nil _ _

theorem wildcardWords_of_no_calls {env : ArgsEnv} {arg : CString}
    (hcalls : wildcardCalls env arg = []) : wildcardWords env arg = [arg] := by
  rcases (wildcardCalls_eq_nil_iff env arg).mp hcalls with henum | hwild
  · exact wildcardWords_of_no_enum henum arg
  · simp [wildcardWords, hwild]

/-- **One word.** It contributes exactly itself and asks for no file names if and only if
the second pass has nothing to expand in it. -/
theorem expands_to_itself_iff (env : ArgsEnv) (arg : CString) :
    expandedWords env arg = [arg] ∧ expandedCalls env arg = [] ↔ KeptAsIs env arg := by
  unfold expandedWords expandedCalls KeptAsIs
  constructor
  · rintro ⟨hwords, hcalls⟩
    have hall : ∀ text ∈ alternatives arg, wildcardCalls env text = [] :=
      List.flatMap_eq_nil_iff.mp hcalls
    have hself : (alternatives arg).flatMap (wildcardWords env) = alternatives arg := by
      calc
        _ = (alternatives arg).flatMap fun text => [text] :=
          List.flatMap_congr fun text htext => wildcardWords_of_no_calls (hall text htext)
        _ = alternatives arg := by simp
    have halternatives : alternatives arg = [arg] := hself.symm.trans hwords
    have hexpand := (alternatives_eq_self_iff arg).mp halternatives
    refine ⟨hexpand, (wildcardCalls_eq_nil_iff env arg).mp (hall arg ?_)⟩
    rw [halternatives]
    simp
  · rintro ⟨hexpand, hcalls⟩
    have hnone := (wildcardCalls_eq_nil_iff env arg).mpr hcalls
    rw [alternatives_eq, if_pos hexpand]
    simp [hnone, wildcardWords_of_no_calls hnone]

/-- **Expansion forgets the quotes.** Lines with the same unquoted words have the same
arguments and are enumerated alike, however their wildcards and braces were written. -/
theorem argsParse_congr (env : ArgsEnv) {first second : CString}
    (hsame : argLexicon.split first = argLexicon.split second) :
    argsParse env first = argsParse env second ∧
      argsParseCalls env first = argsParseCalls env second := by
  constructor
  · rw [argsParse_eq, argsParse_eq, argWords, argWords, hsame]
  · rw [argsParseCalls_eq, argsParseCalls_eq, hsame]

end BasC
