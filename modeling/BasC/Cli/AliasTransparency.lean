/-
# Aliases and the text they stand for

A line is either read directly, when its redirections are cut off and its first word is
cut at the first white space before the rest is parsed, or as the value of an alias, when
the argument parser is given the whole text. This module determines when the two readings
of one text come to the same command.
-/

import BasC.Cli.AliasExpansion

namespace BasC

open CChar Lib

variable {σ : Type} {env : ArgsEnv} {parser : Parser σ} {world : World σ}
  {map : PrefixMap CString}

/-- An alias whose value starts with no alias, whichever way it is read, and fits the
buffers. -/
structure AliasedText (env : ArgsEnv) (map : PrefixMap CString) (name text : CString) : Prop where
  name_word : CommandWord name
  lookup_name : map.get name = some text
  fits : text.length < Buffer.cmdCopy.size
  word_fits : (commandWord (parseRedirections (trimWhitespace text)).1).length < Buffer.cmdName.size
  word_not_alias : map.get (commandWord (parseRedirections (trimWhitespace text)).1) = none
  first_not_alias : ∀ first ∈ (argsParse env text).strings.head?,
    map.get (Limits.source.fit .cmdName first) = none

/-- The command of a text that is the value of an alias. -/
def aliasReading (env : ArgsEnv) (text : CString) : Option (Command × Redirection) :=
  (laterFilling .source (argsParse env text)).map fun st => (st.command, .empty)

/-- The command of a text that is a statement. -/
def directReading (env : ArgsEnv) (text : CString) : Option (Command × Redirection) :=
  (readStatement .source text).bind fun parts =>
    (firstFilling parts.1 (parsedArguments env parts.2.1)).map fun st => (st.command, parts.2.2)

/-- A later filling takes its name from the first word. -/
theorem cmdName_of_laterFilling {limits : Limits} {out : ArgsOut} {st : Expanding}
    (hfilled : laterFilling limits out = some st) :
    ∃ first ∈ out.strings.head?, st.command.cmdName = limits.fit .cmdName first := by
  cases hstrings : out.strings with
  | nil =>
      rw [laterFilling_of_nil limits hstrings] at hfilled
      cases hfilled
  | cons first rest =>
      rw [laterFilling_of_cons limits hstrings] at hfilled
      split at hfilled
      · obtain rfl := Option.some.inj hfilled
        exact ⟨first, rfl, rfl⟩
      · cases hfilled

theorem cmdName_of_firstFilling {cmdName : CString} {out : ArgsOut} {st : Expanding}
    (hfilled : firstFilling cmdName out = some st) : st.command.cmdName = cmdName := by
  unfold firstFilling at hfilled
  split at hfilled
  · obtain rfl := Option.some.inj hfilled
    rfl
  · cases hfilled

/-- The alias is read as its value. -/
theorem AliasedText.offered_name {name text : CString} (haliased : AliasedText env map name text)
    (hparser : parser.argsParser = defaultArgsParser env) (hmap : world.aliasMap = some map) :
    offered .source parser name world = aliasReading env text := by
  have hexpanded : Limits.source.fit .expandedCmd (aliasText text []) = text := by
    rw [aliasText, List.flatMap_nil, List.append_nil]
    exact source_fit_eq_self haliased.fits
  have hstart : firstFilling name (parsedArguments env none) =
      some ⟨⟨name, 1, [some name, none]⟩, []⟩ := by
    rw [parsedArguments, firstFilling_initial, firstFilling_success name (by simp)]
    rfl
  rw [offered_eq hparser hmap, readStatement_word haliased.name_word,
    Option.bind_some, hstart, Option.bind_some, maxAliasExpansions, resolveAliases,
    haliased.lookup_name]
  simp only
  rw [hexpanded, aliasReading]
  cases hfilled : laterFilling .source (argsParse env text) with
  | none => rfl
  | some st =>
      obtain ⟨first, hfirst, hname⟩ := cmdName_of_laterFilling hfilled
      have hnone : map.get st.command.cmdName = none := by
        rw [hname]
        exact haliased.first_not_alias first hfirst
      rw [Option.bind_some, resolveAliases_of_no_alias hnone]
      rfl

/-- The text is read as a statement. -/
theorem AliasedText.offered_text {name text : CString} (haliased : AliasedText env map name text)
    (hparser : parser.argsParser = defaultArgsParser env) (hmap : world.aliasMap = some map) :
    offered .source parser text world = directReading env text := by
  rw [offered_eq hparser hmap, directReading]
  cases hread : readStatement .source text with
  | none => rfl
  | some parts =>
      obtain ⟨-, -, rfl⟩ := readStatement_eq_some haliased.fits hread
      rw [Option.bind_some, Option.bind_some, source_fit_eq_self haliased.word_fits]
      cases hfilled : firstFilling (commandWord (parseRedirections (trimWhitespace text)).1)
          (parsedArguments env (argsStr (parseRedirections (trimWhitespace text)).1)) with
      | none => rfl
      | some st =>
          have hnone : map.get st.command.cmdName = none := by
            rw [cmdName_of_firstFilling hfilled]
            exact haliased.word_not_alias
          rw [Option.bind_some, maxAliasExpansions, resolveAliases_of_no_alias hnone]
          rfl

/-- What the argument parser makes of the text behind the first word. -/
def restOut (env : ArgsEnv) (text : CString) : ArgsOut :=
  parsedArguments env (argsStr (trimWhitespace text))

/-- The text is a command without operators, and the argument parser makes of it the first
word as it stands, followed by what it makes of the text behind that word. -/
structure ReadsFirstWord (env : ArgsEnv) (text : CString) : Prop where
  not_blank : trimWhitespace text ≠ []
  not_comment : (trimWhitespace text).head? ≠ some hash
  noOperator : NoOperator text
  whole_ret : (argsParse env text).ret = 0
  rest_ret : (restOut env text).ret = 0
  argc : (argsParse env text).argc = (restOut env text).argc + 1
  strings : (argsParse env text).strings =
    commandWord (trimWhitespace text) :: (restOut env text).strings

/-- Neither reading gives a command: the argument parser fails, or what it returns is empty
or does not fit the vector, or the text has no command name. -/
structure NoCommand (env : ArgsEnv) (text : CString) : Prop where
  as_alias : (argsParse env text).ret ≠ 0 ∨ (argsParse env text).strings = [] ∨
    65 ≤ (argsParse env text).argc
  as_text : ∀ word args redir, readStatement .source text = some (word, args, redir) →
    (parsedArguments env args).ret ≠ 0 ∨ (parsedArguments env args).argc < -1 ∨
      64 ≤ (parsedArguments env args).argc

theorem aliasReading_eq_none_iff (env : ArgsEnv) (text : CString) :
    aliasReading env text = none ↔ (argsParse env text).ret ≠ 0 ∨
      (argsParse env text).strings = [] ∨ 65 ≤ (argsParse env text).argc := by
  rw [aliasReading, Option.map_eq_none_iff]
  cases hstrings : (argsParse env text).strings with
  | nil => simp [laterFilling_of_nil .source hstrings]
  | cons first rest =>
      rw [laterFilling_of_cons .source hstrings]
      simp only [ite_eq_right_iff, reduceCtorEq, imp_false, not_and_or, not_lt, false_or]

theorem directReading_eq_none_iff (env : ArgsEnv) (text : CString) :
    directReading env text = none ↔
      ∀ word args redir, readStatement .source text = some (word, args, redir) →
        (parsedArguments env args).ret ≠ 0 ∨ (parsedArguments env args).argc < -1 ∨
          64 ≤ (parsedArguments env args).argc := by
  rw [directReading]
  cases hread : readStatement .source text with
  | none => simp
  | some parts =>
      obtain ⟨word, args, redir⟩ := parts
      rw [Option.bind_some, Option.map_eq_none_iff]
      unfold firstFilling
      simp only [ite_eq_right_iff, reduceCtorEq, imp_false, not_and_or, not_lt, not_le,
        Option.some.injEq, Prod.mk.injEq]
      constructor
      · rintro hnone _ _ _ ⟨rfl, rfl, rfl⟩
        exact hnone
      · intro hall
        exact hall word args redir ⟨rfl, rfl, rfl⟩

theorem noCommand_iff (env : ArgsEnv) (text : CString) :
    NoCommand env text ↔ aliasReading env text = none ∧ directReading env text = none := by
  rw [aliasReading_eq_none_iff, directReading_eq_none_iff]
  exact ⟨fun hnone => ⟨hnone.as_alias, hnone.as_text⟩, fun hnone => ⟨hnone.1, hnone.2⟩⟩

/-- Without operators, the command name is the first word. -/
theorem AliasedText.firstWord_fits {name text : CString} (haliased : AliasedText env map name text)
    (hoperators : NoOperator text) :
    (commandWord (trimWhitespace text)).length < Buffer.cmdName.size := by
  have hword := haliased.word_fits
  rwa [parseRedirections_trimWhitespace hoperators] at hword

/-- Reading the first word as it stands is enough. -/
theorem AliasedText.readings_agree {name text : CString}
    (haliased : AliasedText env map name text) (hreads : ReadsFirstWord env text) :
    aliasReading env text = directReading env text := by
  have hword := haliased.firstWord_fits hreads.noOperator
  have hread := readStatement_of_noOperator hreads.not_blank hreads.not_comment hreads.noOperator
    haliased.fits hword
  have hlow : 0 ≤ (restOut env text).argc := by
    have hlength := (argsParse env text).length_strings
    rw [hreads.strings, List.length_cons, hreads.argc] at hlength
    omega
  have hrest : parsedArguments env (argsStr (trimWhitespace text)) = restOut env text := rfl
  rw [aliasReading, laterFilling_of_cons .source hreads.strings, hreads.argc, directReading, hread,
    Option.bind_some, source_fit_eq_self hword]
  simp only [hrest]
  by_cases hroom : (restOut env text).argc < 64
  · rw [firstFilling_of_argc _ hreads.rest_ret hlow hroom, if_pos ⟨hreads.whole_ret, by omega⟩]
    rfl
  · unfold firstFilling
    rw [if_neg (by omega), if_neg (by omega), Option.map_none]

/-- Commands that agree show that the first word was read as it stands. -/
theorem AliasedText.readsFirstWord {name text : CString}
    (haliased : AliasedText env map name text) {command : Command} {redir : Redirection}
    (halias : aliasReading env text = some (command, redir))
    (hdirect : directReading env text = some (command, redir)) : ReadsFirstWord env text := by
  obtain ⟨st, hlater, hpair⟩ := Option.map_eq_some_iff.mp halias
  obtain ⟨parts, hread, hstarted⟩ := Option.bind_eq_some_iff.mp hdirect
  obtain ⟨st', hfirst, hpair'⟩ := Option.map_eq_some_iff.mp hstarted
  obtain ⟨rfl, rfl⟩ := Prod.mk.inj hpair
  obtain ⟨hcommand, hredir⟩ := Prod.mk.inj hpair'
  obtain ⟨hblank, hcomment, rfl⟩ := readStatement_eq_some haliased.fits hread
  have hoperators : NoOperator text := by
    rw [← noOperator_trimWhitespace_iff, ← redirection_eq_none_iff, hredir]
    exact ⟨rfl, rfl, rfl⟩
  have hword := haliased.firstWord_fits hoperators
  rw [parseRedirections_trimWhitespace hoperators, source_fit_eq_self hword] at hfirst
  have hrest : parsedArguments env (argsStr (trimWhitespace text)) = restOut env text := rfl
  simp only [hrest] at hfirst
  obtain ⟨hret, hlow, hhigh⟩ : (restOut env text).ret = 0 ∧ -1 ≤ (restOut env text).argc ∧
      (restOut env text).argc < 64 := by
    by_contra hnot
    unfold firstFilling at hfirst
    rw [if_neg hnot] at hfirst
    cases hfirst
  cases hstrings : (argsParse env text).strings with
  | nil =>
      rw [laterFilling_of_nil .source hstrings] at hlater
      cases hlater
  | cons first rest =>
      rw [laterFilling_of_cons .source hstrings] at hlater
      split at hlater
      · rename_i hwhole
        obtain rfl := Option.some.inj hlater
        have hargc : (restOut env text).argc + 1 = (argsParse env text).argc := by
          have hcount := congrArg Command.cmdArgc hcommand
          unfold firstFilling at hfirst
          rw [if_pos ⟨hret, hlow, hhigh⟩] at hfirst
          rwa [← Option.some.inj hfirst] at hcount
        have hlength := (argsParse env text).length_strings
        rw [hstrings, List.length_cons] at hlength
        rw [firstFilling_of_argc _ hret (by omega) hhigh] at hfirst
        rw [← Option.some.inj hfirst] at hcommand
        have hvector := vector_injective (congrArg Command.cmdArgv hcommand)
        exact ⟨hblank, hcomment, hoperators, hwhole.1, hret, hargc.symm,
          hstrings.trans hvector.symm⟩
      · cases hlater

/-- The first word is plain, and trimming the text touches no escaped blank. -/
structure PlainlyRead (text : CString) : Prop where
  not_blank : trimWhitespace text ≠ []
  not_comment : (trimWhitespace text).head? ≠ some hash
  noOperator : NoOperator text
  plain_word : argLexicon.PlainWord (commandWord (trimWhitespace text))
  trim : TrimSafe (skipSpaces text)

/-- What the two parses return, as words. -/
theorem outputs_iff {word text rest : CString} (hwhole : ∀ words, argWords env text = some words →
      (words.length : ℤ) ≤ intMax)
    (hrest : ∀ words, argWords env rest = some words → (words.length : ℤ) ≤ intMax) :
    ((argsParse env text).ret = 0 ∧ (argsParse env rest).ret = 0 ∧
        (argsParse env text).argc = (argsParse env rest).argc + 1 ∧
        (argsParse env text).strings = word :: (argsParse env rest).strings) ↔
      ∃ words, argWords env rest = some words ∧ argWords env text = some (word :: words) := by
  rw [argsParse_ret_eq_zero_iff, argsParse_ret_eq_zero_iff, argsParse_eq, argsParse_eq]
  constructor
  · rintro ⟨htext, hbehind, -, hstrings⟩
    obtain ⟨words, hwords⟩ := Option.isSome_iff_exists.mp hbehind
    obtain ⟨all, hall⟩ := Option.isSome_iff_exists.mp htext
    rw [hwords, hall, Option.elim_some, Option.elim_some, ArgsOut.success_strings (hwhole _ hall),
      ArgsOut.success_strings (hrest _ hwords)] at hstrings
    exact ⟨words, hwords, hall.trans (congrArg some hstrings)⟩
  · rintro ⟨words, hwords, hall⟩
    rw [hwords, hall, Option.elim_some, Option.elim_some, ArgsOut.success_argc_eq (hwhole _ hall),
      ArgsOut.success_argc_eq (hrest _ hwords), ArgsOut.success_strings (hwhole _ hall),
      ArgsOut.success_strings (hrest _ hwords)]
    exact ⟨rfl, rfl, by rw [List.length_cons]; omega, rfl⟩

/-- The words of a text are its first word and the words behind it exactly when that word is
plain, trimming is harmless, and the words behind it can be read. -/
theorem split_firstWord_iff {text word rest : CString} (hne : word ≠ [])
    (hspace : ∀ c ∈ word, isspace c = false) (htrim : trimWhitespace text = word ++ rest)
    (hrest : StartsBlank rest) :
    (∃ words, argLexicon.split rest = some words ∧
        argLexicon.split text = some (word :: words)) ↔
      (argLexicon.PlainWord word ∧ TrimSafe (skipSpaces text)) ∧
        (argLexicon.split rest).isSome = true := by
  have htrimmed : dropTrailingSpaces (skipSpaces text) = word ++ rest := htrim
  rw [← split_skipSpaces text]
  constructor
  · rintro ⟨words, hwords, htext⟩
    obtain ⟨spaces, tail, -, -, hskip, htail⟩ := exists_trimWhitespace text
    have hbehind : StartsBlank (rest ++ tail) := by
      cases rest with
      | nil => exact fun c hc => htail c (List.mem_of_mem_head? hc)
      | cons b rest => exact hrest
    have hplain : argLexicon.PlainWord word := by
      apply argLexicon.plainWord_of_split_cons hne hspace hbehind
      rw [← List.append_assoc, ← htrim, ← hskip]
      exact htext
    have hread : argLexicon.split (dropTrailingSpaces (skipSpaces text)) =
        some (word :: words) := by
      rw [htrimmed, argLexicon.split_plainWord_append hplain hrest, hwords, Option.map_some]
    refine ⟨⟨hplain, ?_⟩, Option.isSome_iff_exists.mpr ⟨words, hwords⟩⟩
    rcases trimSafe_or_span_lt hread htext with ⟨hsafe, -⟩ | hlt
    · exact hsafe
    · exact absurd hlt (lt_irrefl _)
  · rintro ⟨⟨hplain, hsafe⟩, hsome⟩
    obtain ⟨words, hwords⟩ := Option.isSome_iff_exists.mp hsome
    refine ⟨words, hwords, ?_⟩
    rw [← split_dropTrailingSpaces hsafe, htrimmed, argLexicon.split_plainWord_append hplain hrest,
      hwords, Option.map_some]

/-- **Without expansion,** a text is read as its first word and the arguments behind it
exactly when its first word is plain, its end is not an escaped blank, and no quote stays
open. -/
theorem readsFirstWord_iff (henum : env.enumFunc = none) {text : CString}
    (hbrace : openBrace ∉ text) (hfits : text.length < Buffer.cmdCopy.size) :
    ReadsFirstWord env text ↔ PlainlyRead text ∧ (restOut env text).ret = 0 := by
  by_cases hblank : trimWhitespace text = []
  · exact ⟨fun hreads => absurd hblank hreads.not_blank,
      fun hplain => absurd hblank hplain.1.not_blank⟩
  obtain ⟨rest, htrim, hrest, hspace⟩ := exists_commandWord_append (trimWhitespace text)
  rw [skipSpaces_trimWhitespace] at htrim
  have hne := commandWord_ne_nil hblank
  have hstr : argsStr (trimWhitespace text) = argumentText rest := by
    have happend := argsStr_append hne hspace hrest
    rwa [← htrim] at happend
  obtain ⟨hret, hargc, hstrings⟩ : (restOut env text).ret = (argsParse env rest).ret ∧
      (restOut env text).argc = (argsParse env rest).argc ∧
      (restOut env text).strings = (argsParse env rest).strings := by
    rw [restOut, hstr]
    exact parsedArguments_argumentText env rest
  have hsub : ∀ c ∈ rest, c ∈ text := by
    intro c hc
    obtain ⟨spaces, tail, htext, -⟩ := exists_trimWhitespace text
    rw [htext, htrim]
    simp [hc]
  have hwhole := argWords_eq_split henum hbrace
  have hbehind := argWords_eq_split henum fun hmem => hbrace (hsub _ hmem)
  have hshort : rest.length ≤ text.length := by
    have hle := length_trimWhitespace_le text
    rw [htrim, List.length_append] at hle
    omega
  have hcount := countsFit_of_no_enum henum
  have houtputs := @outputs_iff env (commandWord (trimWhitespace text)) text rest
    (fun words => hcount text words hfits) (fun words => hcount rest words (hshort.trans_lt hfits))
  rw [hwhole, hbehind] at houtputs
  have hread := houtputs.trans (split_firstWord_iff hne hspace htrim hrest)
  have hclosed : (restOut env text).ret = 0 ↔ (argLexicon.split rest).isSome = true := by
    rw [hret, argsParse_ret_eq_zero_iff, hbehind]
  rw [hclosed]
  constructor
  · intro hreads
    have hparses := hread.mp ⟨hreads.whole_ret, hret ▸ hreads.rest_ret, hargc ▸ hreads.argc,
      hstrings ▸ hreads.strings⟩
    exact ⟨⟨hblank, hreads.not_comment, hreads.noOperator, hparses.1.1, hparses.1.2⟩, hparses.2⟩
  · rintro ⟨hplain, hsome⟩
    obtain ⟨hzero, hzero', hone, hlist⟩ := hread.mpr ⟨⟨hplain.plain_word, hplain.trim⟩, hsome⟩
    exact ⟨hblank, hplain.not_comment, hplain.noOperator, hzero, hret.trans hzero',
      by rw [hargc, hone], by rw [hstrings, hlist]⟩

theorem AliasedText.offered_eq_iff {name text : CString} (haliased : AliasedText env map name text)
    (hparser : parser.argsParser = defaultArgsParser env) (hmap : world.aliasMap = some map) :
    offered .source parser name world = offered .source parser text world ↔
      ReadsFirstWord env text ∨ NoCommand env text := by
  rw [haliased.offered_name hparser hmap, haliased.offered_text hparser hmap]
  constructor
  · intro hsame
    cases halias : aliasReading env text with
    | none => exact .inr ((noCommand_iff env text).mpr ⟨halias, hsame ▸ halias⟩)
    | some out =>
        rw [halias] at hsame
        exact .inl (haliased.readsFirstWord halias hsame.symm)
  · rintro (hreads | hnone)
    · exact haliased.readings_agree hreads
    · obtain ⟨halias, hdirect⟩ := (noCommand_iff env text).mp hnone
      rw [halias, hdirect]

/-- **When an alias stands for its text.** The alias and the text come to the same command
with the same redirections, or both to none, if and only if the text is read as its first
word and the arguments behind it, or neither reading gives a command. Without expansion,
the first means that the text has no operators, is no comment, starts with a plain word
and does not end in an escaped blank. -/
theorem offered_alias_eq_iff {name text : CString}
    (hparser : parser.argsParser = defaultArgsParser env) (hmap : world.aliasMap = some map)
    (haliased : AliasedText env map name text) :
    (offered .source parser name world = offered .source parser text world ↔
        ReadsFirstWord env text ∨ NoCommand env text) ∧
      (env.enumFunc = none ∧ openBrace ∉ text →
        (ReadsFirstWord env text ↔ PlainlyRead text ∧ (restOut env text).ret = 0)) :=
  ⟨haliased.offered_eq_iff hparser hmap, fun hkept =>
    readsFirstWord_iff hkept.1 hkept.2 haliased.fits⟩

/-- An alias `a` for a text that starts with `echo`, whichever way it is read. -/
theorem aliasedText_echo {text : CString} (hfits : text.length < Buffer.cmdCopy.size)
    (hword : commandWord (parseRedirections (trimWhitespace text)).1 = cstr "echo")
    (hfirst : (argsParse bareEnv text).strings.head? = some (cstr "echo")) :
    AliasedText bareEnv (aliasTo text) (cstr "a") text where
  name_word := commandWord_a
  lookup_name := by rw [aliasTo_get, if_pos rfl]
  fits := hfits
  word_fits := by
    rw [hword]
    decide +kernel
  word_not_alias := by
    rw [hword, aliasTo_get]
    exact if_neg (by decide +kernel)
  first_not_alias := by
    intro first hmem
    rw [hfirst] at hmem
    rw [← Option.some.inj hmem, aliasTo_get]
    exact if_neg (by decide +kernel)

/-- `a` stands for `echo`. -/
theorem offered_alias_echo :
    offered .source bareParser (cstr "a") (aliasWorld (cstr "echo")) =
      offered .source bareParser (cstr "echo") (aliasWorld (cstr "echo")) := by
  have haliased : AliasedText bareEnv (aliasTo (cstr "echo")) (cstr "a") (cstr "echo") :=
    aliasedText_echo (by decide +kernel) (by decide +kernel) (by decide +kernel)
  apply (offered_alias_eq_iff rfl rfl haliased).1.mpr
  left
  refine ⟨?_, ?_, ?_, ?_, ?_, ?_, ?_⟩
  · decide +kernel
  · decide +kernel
  · unfold NoOperator
    decide +kernel
  · decide +kernel
  · decide +kernel
  · decide +kernel
  · decide +kernel

/-- `a` does not stand for `echo > f`: the redirection becomes two arguments. -/
theorem not_offered_alias_redirection :
    AliasedText bareEnv (aliasTo (cstr "echo > f")) (cstr "a") (cstr "echo > f") ∧
      offered .source bareParser (cstr "a") (aliasWorld (cstr "echo > f")) =
        some (⟨cstr "echo", 3, [some (cstr "echo"), some (cstr ">"), some (cstr "f"), none]⟩,
          .empty) ∧
      offered .source bareParser (cstr "echo > f") (aliasWorld (cstr "echo > f")) =
        some (⟨cstr "echo", 1, [some (cstr "echo"), none]⟩, ⟨some (cstr "f"), none, none, false⟩) ∧
      offered .source bareParser (cstr "a") (aliasWorld (cstr "echo > f")) ≠
        offered .source bareParser (cstr "echo > f") (aliasWorld (cstr "echo > f")) := by
  refine ⟨aliasedText_echo ?_ ?_ ?_, ?_, ?_, ?_⟩ <;> decide +kernel

end BasC
