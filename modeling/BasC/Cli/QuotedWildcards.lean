/-
# Quoted wildcards and braces

Inside quotes or behind a backslash a wildcard or `{` is meant to be literal. The first
pass of `args_parse` knows where the quotes were, but hands only the unquoted text to the
second. This module states what a parser that remembered the quotes would return, and
determines the words in which the quotes make no difference.

In that parser a brace pair opens at a `{` that is neither quoted nor escaped, a word is
looked up for such a wildcard only, and its quoted wildcards match themselves. All else is
as in `args_parse`.
-/

import BasC.Cli.ArgsLiteral

namespace BasC

open CChar Lib

/-- The text of a marked word. -/
def wordText (word : MarkedWord CChar) : CString := word.map Prod.fst

theorem wordText_cons (letter : CChar × Bool) (word : MarkedWord CChar) :
    wordText (letter :: word) = letter.1 :: wordText word := rfl

theorem wordText_append (first second : MarkedWord CChar) :
    wordText (first ++ second) = wordText first ++ wordText second := List.map_append

theorem not_mem_wordText {word : MarkedWord CChar} {c : CChar}
    (hall : ∀ letter ∈ word, letter.1 ≠ c) : c ∉ wordText word := by
  intro hmem
  obtain ⟨letter, hletter, rfl⟩ := List.mem_map.mp hmem
  exact hall letter hletter rfl

theorem wordText_take (word : MarkedWord CChar) (size : ℕ) :
    wordText (word.take size) = (wordText word).take size := List.map_take

theorem wordText_drop (word : MarkedWord CChar) (size : ℕ) :
    wordText (word.drop size) = (wordText word).drop size := List.map_drop

/-- Every wildcard and brace of the word was written inside quotes or behind a
backslash. -/
def isLiteralWord (word : MarkedWord CChar) : Bool :=
  word.all fun letter => !isExpansionByte letter.1 || letter.2

/-- No wildcard or brace of the word was written inside quotes or behind a backslash. -/
def isBareWord (word : MarkedWord CChar) : Bool :=
  word.all fun letter => !isExpansionByte letter.1 || !letter.2

def isBareBrace (letter : CChar × Bool) : Bool := letter.1 = openBrace && !letter.2

def isBareWildcard (letter : CChar × Bool) : Bool := isWildcardByte letter.1 && !letter.2

/-- The items of brace content, cut where `expand_brace` cuts its text. -/
def literalItems (content : MarkedWord CChar) : List (MarkedWord CChar) :=
  match _hcontent : content.dropWhile fun letter => isspace letter.1 with
  | [] => []
  | letter :: letters =>
      let size := (braceItem none (wordText (letter :: letters))).1.length
      match _hitem : (letter :: letters).drop size with
      | [] => [letter :: letters]
      | next :: rest =>
          (letter :: letters).take size :: if next.1 = comma then literalItems rest else []
termination_by content.length
decreasing_by
  have hskip := (List.dropWhile_sublist (l := content) fun letter => isspace letter.1).length_le
  have hdrop := congrArg List.length _hitem
  rw [_hcontent] at hskip
  rw [List.length_drop, List.length_cons, List.length_cons] at hdrop
  rw [List.length_cons] at hskip
  omega

/-- The alternatives of the first brace pair that opens at a bare `{`. -/
def literalBrace (word : MarkedWord CChar) : List (MarkedWord CChar) :=
  match word.dropWhile fun letter => !isBareBrace letter with
  | [] => []
  | _ :: inner =>
      match inner.dropWhile fun letter => !decide (letter.1 = closeBrace) with
      | [] => []
      | _ :: suffix =>
          (literalItems (inner.takeWhile fun letter => !decide (letter.1 = closeBrace))).map
            fun item => (word.takeWhile fun letter => !isBareBrace letter) ++ item ++ suffix

/-- The alternatives of a word, or the word itself. -/
def literalAlternatives (word : MarkedWord CChar) : List (MarkedWord CChar) :=
  if (literalBrace word).isEmpty then [word] else literalBrace word

/-- The `fnmatch` pattern in which quoted wildcards match themselves. A backslash of the
text takes the next letter literally already. -/
def protectWildcards : MarkedWord CChar → CString
  | [] => []
  | letter :: word =>
      if letter.1 = backslash then
        match word with
        | [] => [backslash]
        | next :: word => backslash :: next.1 :: protectWildcards word
      else if isWildcardByte letter.1 && letter.2 then
        backslash :: letter.1 :: protectWildcards word
      else letter.1 :: protectWildcards word

/-- `file_pattern`, with quoted wildcards matching themselves. -/
def literalFilePattern (word : MarkedWord CChar) : CString :=
  protectWildcards ((word.rtakeWhile fun letter => !decide (letter.1 = slash)).take 255)

/-- The files that the bare wildcards of one alternative match. -/
def literalMatches (env : ArgsEnv) (word : MarkedWord CChar) : List CString :=
  match env.enumFunc with
  | none => []
  | some enumFunc =>
      let result := enumFunc (wildcardCall env (wordText word))
      if result.status = 0 then
        result.items.filterMap
          (wildcardCallback (patternParts (wordText word)).1 (literalFilePattern word))
      else []

/-- What one alternative contributes. -/
def literalWildcardWords (env : ArgsEnv) (word : MarkedWord CChar) : List CString :=
  if word.any isBareWildcard && decide (0 < (literalMatches env word).length) then
    literalMatches env word
  else [wordText word]

/-- The calls of the enumeration function made for one alternative. -/
def literalWildcardCalls (env : ArgsEnv) (word : MarkedWord CChar) : List EnumCall :=
  if word.any isBareWildcard then (expandWildcard env (wordText word)).calls else []

/-- What one word contributes to the argument vector. -/
def literalWords (env : ArgsEnv) (word : MarkedWord CChar) : List CString :=
  (literalAlternatives word).flatMap (literalWildcardWords env)

/-- The calls of the enumeration function made for one word. -/
def literalCalls (env : ArgsEnv) (word : MarkedWord CChar) : List EnumCall :=
  (literalAlternatives word).flatMap (literalWildcardCalls env)

/-- The result of a parser for which quoted wildcards and braces are literal. -/
def literalParse (env : ArgsEnv) (line : CString) : ArgsOut :=
  ((argLexicon.splitMarked line).map (List.flatMap (literalWords env))).elim .failure .success

/-- The calls of the enumeration function that such a parser makes. -/
def literalParseCalls (env : ArgsEnv) (line : CString) : List EnumCall :=
  (argLexicon.splitMarked line).elim [] (List.flatMap (literalCalls env))

/-! ## The items of a brace pair are the source's -/

theorem skipSpaces_wordText (word : MarkedWord CChar) :
    skipSpaces (wordText word) = wordText (word.dropWhile fun letter => isspace letter.1) :=
  List.dropWhile_map

theorem skipSpaces_wordText_cons {content letters : MarkedWord CChar} {letter : CChar × Bool}
    (hcontent : content.dropWhile (fun letter => isspace letter.1) = letter :: letters) :
    skipSpaces (wordText content) = letter.1 :: wordText letters := by
  rw [skipSpaces_wordText, hcontent]
  rfl

/-- The item and the rest are cut off by their length. -/
theorem braceItem_none_eq (text : CString) :
    (braceItem none text).1 = text.take (braceItem none text).1.length ∧
      (braceItem none text).2 = text.drop (braceItem none text).1.length := by
  have hsplit := braceItem_append none text
  constructor
  · calc
      _ = ((braceItem none text).1 ++ (braceItem none text).2).take
          (braceItem none text).1.length := List.take_left.symm
      _ = _ := congrArg (List.take _) hsplit
  · calc
      _ = ((braceItem none text).1 ++ (braceItem none text).2).drop
          (braceItem none text).1.length := List.drop_left.symm
      _ = _ := congrArg (List.drop _) hsplit

/-- **Marked items are the source's items.** -/
theorem map_wordText_literalItems (content : MarkedWord CChar) :
    (literalItems content).map wordText = braceItems (wordText content) := by
  fun_induction literalItems content with
  | case1 content hcontent =>
      have hskip := skipSpaces_wordText content
      rw [hcontent] at hskip
      rw [braceItems]
      split <;> simp_all [wordText]
  | case2 content letter letters hcontent size hitem =>
      have hskip := skipSpaces_wordText_cons hcontent
      obtain ⟨hfirst, hrest⟩ := braceItem_none_eq (wordText (letter :: letters))
      have hnil : (wordText (letter :: letters)).drop size = [] := by
        rw [← wordText_drop, hitem]
        rfl
      have hwhole : (wordText (letter :: letters)).take size = wordText (letter :: letters) :=
        List.take_of_length_le (List.drop_eq_nil_iff.mp hnil)
      have hitem : (braceItem none (letter.1 :: wordText letters)).1 =
          wordText (letter :: letters) := hfirst.trans hwhole
      have hend : (braceItem none (letter.1 :: wordText letters)).2 = [] := hrest.trans hnil
      rw [braceItems_of_skipSpaces hskip, hitem, hend]
      rfl
  | case3 content letter letters hcontent size next rest hitem ih =>
      have hskip := skipSpaces_wordText_cons hcontent
      obtain ⟨hfirst, hrest⟩ := braceItem_none_eq (wordText (letter :: letters))
      have hitems : (braceItem none (letter.1 :: wordText letters)).1 =
          wordText ((letter :: letters).take size) :=
        hfirst.trans (wordText_take _ size).symm
      have hmore : (braceItem none (letter.1 :: wordText letters)).2 = next.1 :: wordText rest := by
        have hdrop : (wordText (letter :: letters)).drop size = next.1 :: wordText rest := by
          rw [← wordText_drop, hitem]
          rfl
        exact hrest.trans hdrop
      rw [braceItems_of_skipSpaces hskip, hitems, hmore, List.map_cons, List.head?_cons,
        List.tail_cons, ← ih]
      by_cases hcomma : next.1 = comma
      · simp [hcomma]
      · simp [hcomma]

/-- No item has a letter that is not in the content. -/
theorem mem_of_mem_literalItems {content item : MarkedWord CChar}
    (hitem : item ∈ literalItems content) {letter : CChar × Bool} (hletter : letter ∈ item) :
    letter ∈ content := by
  fun_induction literalItems content with
  | case1 content hcontent => simp at hitem
  | case2 content first letters hcontent size hrest =>
      rw [List.mem_singleton.mp hitem, ← hcontent] at hletter
      exact (List.dropWhile_sublist _).subset hletter
  | case3 content first letters hcontent size next rest hrest ih =>
      apply (List.dropWhile_sublist fun letter => isspace letter.1).subset
      rw [hcontent]
      rcases List.mem_cons.mp hitem with rfl | hitem
      · exact List.mem_of_mem_take hletter
      · split at hitem
        · apply List.mem_of_mem_drop
          rw [hrest]
          exact List.mem_cons_of_mem next (ih hitem)
        · simp at hitem

/-- A brace pair cut out of its word. -/
theorem expandBrace_cut {before content : CString} (hbefore : openBrace ∉ before)
    (hcontent : closeBrace ∉ content) (suffix : CString) :
    expandBrace (before ++ openBrace :: (content ++ closeBrace :: suffix)) =
      (braceItems content).map fun item => before ++ item ++ suffix := by
  have hclose : closeBrace ∉ openBrace :: content :=
    List.not_mem_cons_of_ne_of_not_mem (by decide) hcontent
  rw [expandBrace, strchr_append_cons hbefore]
  simp only
  rw [← List.cons_append, strchr_append_cons hclose]
  rfl

theorem expandBrace_of_not_closed {before rest : CString} (hbefore : openBrace ∉ before)
    (hrest : closeBrace ∉ rest) : expandBrace (before ++ openBrace :: rest) = [] := by
  have hclose : closeBrace ∉ openBrace :: rest :=
    List.not_mem_cons_of_ne_of_not_mem (by decide) hrest
  rw [expandBrace, strchr_append_cons hbefore]
  simp only
  rw [(strchr_eq_none_iff _ _).mpr hclose]

/-- **Bare braces are the source's.** -/
theorem map_wordText_literalBrace {word : MarkedWord CChar}
    (hbare : ∀ letter ∈ word, letter.1 = openBrace → letter.2 = false) :
    (literalBrace word).map wordText = expandBrace (wordText word) := by
  have hbefore : openBrace ∉ wordText (word.takeWhile fun letter => !isBareBrace letter) := by
    apply not_mem_wordText
    intro letter hletter hopen
    have hmark := hbare letter ((List.takeWhile_sublist _).subset hletter) hopen
    have hnot := List.mem_takeWhile_imp hletter
    simp [isBareBrace, hopen, hmark] at hnot
  have hword := List.takeWhile_append_dropWhile (p := fun letter => !isBareBrace letter) (l := word)
  unfold literalBrace
  generalize word.takeWhile (fun letter => !isBareBrace letter) = before at hbefore hword ⊢
  cases hdrop : word.dropWhile fun letter => !isBareBrace letter with
  | nil =>
      rw [hdrop, List.append_nil] at hword
      subst hword
      exact (expandBrace_eq_nil_of_not_containsBrace (containsBrace_eq_false hbefore)).symm
  | cons brace inner =>
      have hbrace : brace.1 = openBrace := by
        have hhead := List.head?_dropWhile_not (fun letter => !isBareBrace letter) word
        rw [hdrop] at hhead
        have hboth : brace.1 = openBrace ∧ brace.2 = false := by simpa [isBareBrace] using hhead
        exact hboth.1
      have hcontent : closeBrace ∉
          wordText (inner.takeWhile fun letter => !decide (letter.1 = closeBrace)) := by
        apply not_mem_wordText
        intro letter hletter
        simpa using List.mem_takeWhile_imp hletter
      have hinner := List.takeWhile_append_dropWhile (p := fun letter : CChar × Bool =>
        !decide (letter.1 = closeBrace)) (l := inner)
      rw [hdrop] at hword
      simp only
      generalize inner.takeWhile (fun letter => !decide (letter.1 = closeBrace)) = content
        at hcontent hinner ⊢
      cases hclose : inner.dropWhile fun letter => !decide (letter.1 = closeBrace) with
      | nil =>
          rw [hclose, List.append_nil] at hinner
          subst hinner hword
          rw [wordText_append, wordText_cons, hbrace, expandBrace_of_not_closed hbefore hcontent]
          rfl
      | cons close suffix =>
          have hcloseBrace : close.1 = closeBrace := by
            have hhead := List.head?_dropWhile_not
              (fun letter : CChar × Bool => !decide (letter.1 = closeBrace)) inner
            rw [hclose] at hhead
            simpa using hhead
          rw [hclose] at hinner
          subst hinner hword
          rw [wordText_append, wordText_cons, wordText_append, wordText_cons, hbrace, hcloseBrace,
            expandBrace_cut hbefore hcontent, ← map_wordText_literalItems, List.map_map,
            List.map_map]
          congr 1
          funext item
          simp [wordText]

theorem map_wordText_literalAlternatives {word : MarkedWord CChar}
    (hbare : ∀ letter ∈ word, letter.1 = openBrace → letter.2 = false) :
    (literalAlternatives word).map wordText = alternatives (wordText word) := by
  have hbrace := map_wordText_literalBrace hbare
  unfold literalAlternatives
  rw [alternatives_eq, ← hbrace]
  cases literalBrace word with
  | nil => rfl
  | cons first rest => rfl

theorem mem_of_mem_literalAlternatives {word alternative : MarkedWord CChar}
    (halternative : alternative ∈ literalAlternatives word) {letter : CChar × Bool}
    (hletter : letter ∈ alternative) : letter ∈ word := by
  unfold literalAlternatives at halternative
  split at halternative
  · rwa [List.mem_singleton.mp halternative] at hletter
  · unfold literalBrace at halternative
    split at halternative
    · simp at halternative
    · rename_i brace inner hdrop
      split at halternative
      · simp at halternative
      · rename_i close suffix hclose
        have hinner : ∀ l ∈ inner, l ∈ word := fun l hl =>
          (List.dropWhile_sublist _).subset (hdrop ▸ List.mem_cons_of_mem brace hl)
        obtain ⟨item, hitem, rfl⟩ := List.mem_map.mp halternative
        rcases List.mem_append.mp hletter with hletter | hletter
        · rcases List.mem_append.mp hletter with hletter | hletter
          · exact (List.takeWhile_sublist _).subset hletter
          · have hcontent := mem_of_mem_literalItems hitem hletter
            exact hinner _ ((List.takeWhile_sublist _).subset hcontent)
        · have hsuffix : letter ∈ inner :=
            (List.dropWhile_sublist _).subset (hclose ▸ List.mem_cons_of_mem close hletter)
          exact hinner _ hsuffix

/-- A word without a bare `{` has no alternatives. -/
theorem literalAlternatives_of_no_brace {word : MarkedWord CChar}
    (hbrace : ∀ letter ∈ word, isBareBrace letter = false) : literalAlternatives word = [word] := by
  have hdrop : word.dropWhile (fun letter => !isBareBrace letter) = [] := by
    rw [List.dropWhile_eq_nil_iff]
    intro letter hletter
    simp [hbrace letter hletter]
  simp [literalAlternatives, literalBrace, hdrop]

theorem protectWildcards_of_bare {word : MarkedWord CChar}
    (hbare : ∀ letter ∈ word, isWildcardByte letter.1 = true → letter.2 = false) :
    protectWildcards word = wordText word := by
  fun_induction protectWildcards word with
  | case1 => rfl
  | case2 letter hescape => simp [wordText, hescape]
  | case3 letter hescape next word ih =>
      rw [ih fun l hl => hbare l (by simp [hl])]
      simp [wordText, hescape]
  | case4 letter word hescape hquoted ih =>
      simp only [Bool.and_eq_true] at hquoted
      have hmark := hbare letter (by simp) hquoted.1
      simp [hmark] at hquoted
  | case5 letter word hescape hquoted ih =>
      rw [ih fun l hl => hbare l (by simp [hl])]
      rfl

theorem patternParts_snd (pattern : CString) :
    (patternParts pattern).2 =
      (pattern.rtakeWhile fun c => !decide (c = slash)).take 255 := by
  unfold patternParts
  cases hcut : strrchr pattern slash with
  | none =>
      have hfree : pattern.rtakeWhile (fun c => !decide (c = slash)) = pattern := by
        rw [List.rtakeWhile_eq_self_iff]
        intro c hc
        have hnot := (strrchr_eq_none_iff pattern slash).mp hcut
        have hne : c ≠ slash := fun heq => hnot (heq ▸ hc)
        simpa using hne
      rw [hfree]
      rfl
  | some cut =>
      obtain ⟨dir, lastSlash⟩ := cut
      obtain ⟨rfl, after, rfl, hafter⟩ := strrchr_eq_some hcut
      have hlast : (dir ++ slash :: after).rtakeWhile (fun c => !decide (c = slash)) = after := by
        have hkept : ∀ c ∈ after.reverse, (!decide (c = slash)) = true := by
          intro c hc
          have hne : c ≠ slash := fun heq => hafter (heq ▸ List.mem_reverse.mp hc)
          simpa using hne
        rw [List.rtakeWhile, List.reverse_append, List.reverse_cons, List.append_assoc,
          List.takeWhile_append_of_pos hkept]
        simp
      rw [hlast]
      rfl

theorem literalFilePattern_of_bare {word : MarkedWord CChar}
    (hbare : ∀ letter ∈ word, isWildcardByte letter.1 = true → letter.2 = false) :
    literalFilePattern word = (patternParts (wordText word)).2 := by
  have hlast : wordText (word.rtakeWhile fun letter => !decide (letter.1 = slash)) =
      (wordText word).rtakeWhile fun c => !decide (c = slash) := by
    simp [wordText, List.rtakeWhile, ← List.map_reverse, List.takeWhile_map, Function.comp_def]
  unfold literalFilePattern
  rw [protectWildcards_of_bare, wordText_take, hlast, patternParts_snd]
  intro letter hletter
  exact hbare letter ((List.rtakeWhile_suffix _ _).subset (List.mem_of_mem_take hletter))

/-! ## Where the quotes make no difference -/

/-- The name of a reported item that is matched against the pattern. -/
def itemName (item : CString) : CString :=
  match strrchr item slash with
  | none => item
  | some (_, lastSlash) => lastSlash.tail

theorem wildcardCallback_congr {first second item : CString} (patternDir : CString)
    (hsame : fnmatch first (itemName item) = fnmatch second (itemName item)) :
    wildcardCallback patternDir first item = wildcardCallback patternDir second item := by
  unfold itemName at hsame
  unfold wildcardCallback
  cases hcut : strrchr item slash with
  | none =>
      rw [hcut] at hsame
      simp only at hsame ⊢
      rw [hsame]
  | some cut =>
      rw [hcut] at hsame
      simp only at hsame ⊢
      rw [hsame]

/-- The quotes make no difference to what is found for one alternative. Without a bare
wildcard it is not to be looked up. With one, the names reported match alike whether the
quoted wildcards are wildcards or match themselves. -/
def FoundAlike (env : ArgsEnv) (word : MarkedWord CChar) : Prop :=
  if word.any isBareWildcard then
    ∀ enumFunc ∈ env.enumFunc, (enumFunc (wildcardCall env (wordText word))).status = 0 →
      ∀ item ∈ (enumFunc (wildcardCall env (wordText word))).items,
        fnmatch (literalFilePattern word) (itemName item) =
          fnmatch (patternParts (wordText word)).2 (itemName item)
  else env.enumFunc = none ∨ containsWildcard (wordText word) = false

/-- The quotes make no difference to a word: its alternatives are the same when quoted
braces are text, and the same is found for each of them. -/
structure QuotesSpared (env : ArgsEnv) (word : MarkedWord CChar) : Prop where
  alternatives : alternatives (wordText word) = (literalAlternatives word).map wordText
  found : ∀ alternative ∈ literalAlternatives word, FoundAlike env alternative

theorem containsWildcard_of_any_bare {word : MarkedWord CChar}
    (hany : word.any isBareWildcard = true) : containsWildcard (wordText word) = true := by
  obtain ⟨letter, hletter, hbare⟩ := List.any_eq_true.mp hany
  rw [isBareWildcard, Bool.and_eq_true] at hbare
  rw [containsWildcard_eq, List.any_eq_true]
  exact ⟨letter.1, List.mem_map_of_mem hletter, hbare.1⟩

theorem wildcardMatches_eq_literalMatches {env : ArgsEnv} {word : MarkedWord CChar}
    (hfound : ∀ enumFunc ∈ env.enumFunc, (enumFunc (wildcardCall env (wordText word))).status = 0 →
      ∀ item ∈ (enumFunc (wildcardCall env (wordText word))).items,
        fnmatch (literalFilePattern word) (itemName item) =
          fnmatch (patternParts (wordText word)).2 (itemName item)) :
    wildcardMatches env (wordText word) = literalMatches env word := by
  unfold wildcardMatches literalMatches expandWildcard
  cases henum : env.enumFunc with
  | none => rfl
  | some enumFunc =>
      simp only
      by_cases hstatus : (enumFunc (wildcardCall env (wordText word))).status = 0
      · rw [if_pos hstatus, if_pos hstatus]
        exact List.filterMap_congr fun item hitem =>
          (wildcardCallback_congr _ (hfound enumFunc henum hstatus item hitem)).symm
      · rw [if_neg hstatus, if_neg hstatus]
        rfl

/-- **One alternative.** -/
theorem FoundAlike.agrees {env : ArgsEnv} {word : MarkedWord CChar} (hfound : FoundAlike env word) :
    wildcardWords env (wordText word) = literalWildcardWords env word ∧
      wildcardCalls env (wordText word) = literalWildcardCalls env word := by
  unfold FoundAlike at hfound
  by_cases hany : word.any isBareWildcard = true
  · rw [if_pos hany] at hfound
    have hwild := containsWildcard_of_any_bare hany
    have hmatches := wildcardMatches_eq_literalMatches hfound
    unfold wildcardWords literalWildcardWords wildcardCalls literalWildcardCalls
    rw [hwild, hany, hmatches]
    exact ⟨rfl, rfl⟩
  · rw [if_neg hany] at hfound
    have hcalls := (wildcardCalls_eq_nil_iff env (wordText word)).mpr hfound
    rw [wildcardWords_of_no_calls hcalls, hcalls]
    simp [literalWildcardWords, literalWildcardCalls, hany]

/-- **One word.** -/
theorem QuotesSpared.agrees {env : ArgsEnv} {word : MarkedWord CChar}
    (hspared : QuotesSpared env word) :
    expandedWords env (wordText word) = literalWords env word ∧
      expandedCalls env (wordText word) = literalCalls env word := by
  unfold expandedWords literalWords expandedCalls literalCalls
  rw [hspared.alternatives, List.flatMap_map, List.flatMap_map]
  exact ⟨List.flatMap_congr fun alternative halternative =>
      (hspared.found alternative halternative).agrees.1,
    List.flatMap_congr fun alternative halternative =>
      (hspared.found alternative halternative).agrees.2⟩

/-- The quotes make no difference to a word without quoted wildcards and braces. -/
theorem quotesSpared_of_bare {env : ArgsEnv} {word : MarkedWord CChar}
    (hbare : isBareWord word = true) : QuotesSpared env word := by
  have hmark : ∀ letter ∈ word, isExpansionByte letter.1 = true → letter.2 = false := by
    intro letter hletter hbyte
    have hall := List.all_eq_true.mp hbare letter hletter
    simpa [hbyte] using hall
  refine ⟨(map_wordText_literalAlternatives fun letter hletter hopen => ?_).symm, ?_⟩
  · exact hmark letter hletter (by simp [isExpansionByte, hopen])
  · intro alternative halternative
    have hwild : ∀ letter ∈ alternative, isWildcardByte letter.1 = true → letter.2 = false :=
      fun letter hletter hbyte =>
        hmark letter (mem_of_mem_literalAlternatives halternative hletter)
          (by simp [isExpansionByte, hbyte])
    unfold FoundAlike
    split
    · intro enumFunc _ _ item _
      rw [literalFilePattern_of_bare hwild]
    · rename_i hnone
      right
      rw [containsWildcard_eq, wordText, List.any_map, List.any_eq_false]
      intro letter hletter hbyte
      have hbare := List.any_eq_false.mp (Bool.not_eq_true _ ▸ hnone) letter hletter
      rw [isBareWildcard, hwild letter hletter hbyte] at hbare
      exact hbare (by simpa using hbyte)

/-- A word whose wildcards and braces are all quoted has nothing to expand. -/
theorem literal_of_isLiteralWord {word : MarkedWord CChar}
    (hliteral : isLiteralWord word = true) :
    literalAlternatives word = [word] ∧ word.any isBareWildcard = false := by
  have hmark : ∀ letter ∈ word, isExpansionByte letter.1 = true → letter.2 = true := by
    intro letter hletter hbyte
    have hall := List.all_eq_true.mp hliteral letter hletter
    simpa [hbyte] using hall
  constructor
  · apply literalAlternatives_of_no_brace
    intro letter hletter
    by_contra hbare
    have hboth : letter.1 = openBrace ∧ letter.2 = false := by simpa [isBareBrace] using hbare
    have hquoted := hmark letter hletter (by simp [isExpansionByte, hboth.1])
    simp [hboth.2] at hquoted
  · rw [List.any_eq_false]
    intro letter hletter hbare
    have hboth : isWildcardByte letter.1 = true ∧ letter.2 = false := by
      simpa [isBareWildcard] using hbare
    have hquoted := hmark letter hletter (by simp [isExpansionByte, hboth.1])
    simp [hboth.2] at hquoted

/-- **A word whose wildcards and braces are all quoted** is one argument, its text, and no
file names are asked for. -/
theorem literalWords_of_isLiteralWord (env : ArgsEnv) {word : MarkedWord CChar}
    (hliteral : isLiteralWord word = true) :
    literalWords env word = [wordText word] ∧ literalCalls env word = [] := by
  obtain ⟨halternatives, hany⟩ := literal_of_isLiteralWord hliteral
  unfold literalWords literalCalls
  rw [halternatives]
  simp [literalWildcardWords, literalWildcardCalls, hany]

/-- For such a word the quotes make no difference exactly when the second pass has nothing
to expand in its text. -/
theorem quotesSpared_iff_keptAsIs (env : ArgsEnv) {word : MarkedWord CChar}
    (hliteral : isLiteralWord word = true) :
    QuotesSpared env word ↔ KeptAsIs env (wordText word) := by
  obtain ⟨halternatives, hany⟩ := literal_of_isLiteralWord hliteral
  have hself : (literalAlternatives word).map wordText = [wordText word] := by
    rw [halternatives, List.map_singleton]
  have hfound : FoundAlike env word ↔
      env.enumFunc = none ∨ containsWildcard (wordText word) = false := by
    rw [FoundAlike, hany]
    rfl
  constructor
  · intro hspared
    have hsame := hspared.alternatives
    rw [hself, alternatives_eq_self_iff] at hsame
    exact ⟨hsame, hfound.mp (hspared.found word (by rw [halternatives]; simp))⟩
  · rintro ⟨hexpand, hlookup⟩
    refine ⟨?_, ?_⟩
    · rw [hself, alternatives_eq_self_iff]
      exact hexpand
    · intro alternative halternative
      rw [halternatives, List.mem_singleton] at halternative
      rw [halternative]
      exact hfound.mpr hlookup

/-- Two concatenations whose pieces are pairwise at most as long agree only piece by
piece. -/
theorem eq_of_flatMap_eq {α β : Type*} {f g : α → List β} {xs : List α}
    (hlength : ∀ x ∈ xs, (g x).length ≤ (f x).length) (hflat : xs.flatMap f = xs.flatMap g) :
    ∀ x ∈ xs, f x = g x := by
  have htotal : ∀ ys : List α, (∀ y ∈ ys, (g y).length ≤ (f y).length) →
      (ys.flatMap g).length ≤ (ys.flatMap f).length := by
    intro ys hys
    induction ys with
    | nil => simp
    | cons y ys ih =>
        have hhead := hys y (by simp)
        have htail := ih fun z hz => hys z (by simp [hz])
        simp only [List.flatMap_cons, List.length_append]
        omega
  induction xs with
  | nil => simp
  | cons x xs ih =>
      rw [List.flatMap_cons, List.flatMap_cons] at hflat
      have hhead := hlength x (by simp)
      have htail := htotal xs fun z hz => hlength z (by simp [hz])
      have hsum := congrArg List.length hflat
      rw [List.length_append, List.length_append] at hsum
      obtain ⟨hx, hxs⟩ := List.append_inj hflat (by omega)
      intro y hy
      rcases List.mem_cons.mp hy with rfl | hy
      · exact hx
      · exact ih (fun z hz => hlength z (by simp [hz])) hxs y hy

theorem ArgsOut.success_injective : Function.Injective ArgsOut.success := by
  intro first second heq
  have hargv := congrArg ArgsOut.argv heq
  rw [ArgsOut.success_argv, ArgsOut.success_argv, Option.some.injEq, List.append_left_inj] at hargv
  exact List.map_injective_iff.mpr (Option.some_injective _) hargv

theorem argsParse_eq_marked (env : ArgsEnv) (line : CString) :
    argsParse env line = ((argLexicon.splitMarked line).map
      (List.flatMap fun word => expandedWords env (wordText word))).elim .failure .success := by
  rw [argsParse_eq, argWords, Lexicon.split, Option.map_map]
  congr 2
  funext words
  simp [Lexicon.unmark, List.flatMap_map, wordText]

theorem argsParseCalls_eq_marked (env : ArgsEnv) (line : CString) :
    argsParseCalls env line = (argLexicon.splitMarked line).elim []
      (List.flatMap fun word => expandedCalls env (wordText word)) := by
  rw [argsParseCalls_eq, Lexicon.split]
  cases argLexicon.splitMarked line with
  | none => rfl
  | some words => simp [Lexicon.unmark, List.flatMap_map, wordText]

/-- The vector and the calls of a line are those of the reference: quoted wildcards and
braces are literal. -/
def SuppressesExpansion (env : ArgsEnv) (line : CString) : Prop :=
  argsParse env line = literalParse env line ∧ argsParseCalls env line = literalParseCalls env line

/-- The quotes make no difference to any word of the line that mixes quoted wildcards or
braces with bare ones. -/
def MixedSpared (env : ArgsEnv) (line : CString) : Prop :=
  ∀ words, argLexicon.splitMarked line = some words → ∀ word ∈ words,
    isLiteralWord word = false → isBareWord word = false → QuotesSpared env word

/-- The quotes make no difference to any word of the line. -/
def LineSpared (env : ArgsEnv) (line : CString) : Prop :=
  ∀ words, argLexicon.splitMarked line = some words → ∀ word ∈ words, QuotesSpared env word

/-- Spared words are expanded as in the reference. -/
theorem LineSpared.suppressesExpansion {env : ArgsEnv} {line : CString}
    (hspared : LineSpared env line) : SuppressesExpansion env line := by
  unfold LineSpared at hspared
  unfold SuppressesExpansion
  rw [argsParse_eq_marked, argsParseCalls_eq_marked, literalParse, literalParseCalls]
  cases hsplit : argLexicon.splitMarked line with
  | none => exact ⟨rfl, rfl⟩
  | some words =>
      have hagrees := fun word hword => (hspared words hsplit word hword).agrees
      exact ⟨congrArg ArgsOut.success (List.flatMap_congr fun word hword => (hagrees word hword).1),
        List.flatMap_congr fun word hword => (hagrees word hword).2⟩

/-- When the mixed words are spared, agreement shows that all words are. -/
theorem SuppressesExpansion.lineSpared {env : ArgsEnv} {line : CString}
    (hsuppresses : SuppressesExpansion env line) (hmixed : MixedSpared env line) :
    LineSpared env line := by
  intro words hsplit
  obtain ⟨hwords, hcalls⟩ := hsuppresses
  rw [argsParse_eq_marked, literalParse, hsplit] at hwords
  rw [argsParseCalls_eq_marked, literalParseCalls, hsplit] at hcalls
  have hflat := ArgsOut.success_injective hwords
  have hspared : ∀ word ∈ words, isLiteralWord word = false → QuotesSpared env word := by
    intro word hword hliteral
    cases hbare : isBareWord word with
    | true => exact quotesSpared_of_bare hbare
    | false => exact hmixed words hsplit word hword hliteral hbare
  have hwordLength : ∀ word ∈ words, (literalWords env word).length ≤
      (expandedWords env (wordText word)).length := by
    intro word hword
    cases hliteral : isLiteralWord word with
    | true =>
        rw [(literalWords_of_isLiteralWord env hliteral).1]
        exact List.length_pos_iff.mpr (expandedWords_ne_nil env _)
    | false => rw [(hspared word hword hliteral).agrees.1]
  have hcallLength : ∀ word ∈ words, (literalCalls env word).length ≤
      (expandedCalls env (wordText word)).length := by
    intro word hword
    cases hliteral : isLiteralWord word with
    | true =>
        rw [(literalWords_of_isLiteralWord env hliteral).2]
        exact Nat.zero_le _
    | false => rw [(hspared word hword hliteral).agrees.2]
  intro word hword
  cases hliteral : isLiteralWord word with
  | true =>
      have hself := eq_of_flatMap_eq hwordLength hflat word hword
      have hnone := eq_of_flatMap_eq hcallLength hcalls word hword
      obtain ⟨htext, hsilent⟩ := literalWords_of_isLiteralWord env hliteral
      rw [quotesSpared_iff_keptAsIs env hliteral, ← expands_to_itself_iff, hself, hnone]
      exact ⟨htext, hsilent⟩
  | false => exact hspared word hword hliteral

/-- **When quoting suppresses expansion.** It does on every line to whose words the quotes
make no difference. Conversely, when it does and the words that mix quoted with bare
wildcards or braces are spared, the quotes make no difference to any word. -/
theorem suppressesExpansion_iff (env : ArgsEnv) (line : CString) :
    (LineSpared env line → SuppressesExpansion env line) ∧
      (MixedSpared env line → (SuppressesExpansion env line ↔ LineSpared env line)) :=
  ⟨LineSpared.suppressesExpansion, fun hmixed =>
    ⟨fun hsuppresses => hsuppresses.lineSpared hmixed, LineSpared.suppressesExpansion⟩⟩

/-- The word `"*"` is looked up although its star is quoted. -/
theorem not_suppressesExpansion_quoted_star :
    ¬ SuppressesExpansion ⟨some fun _ => ⟨[cstr "/d/x"], 0⟩, some (cstr "/d")⟩ (cstr "\"*\"") := by
  rintro ⟨-, hcalls⟩
  exact absurd hcalls (by decide +kernel)

end BasC
