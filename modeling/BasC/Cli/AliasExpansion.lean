/-
# One alias expansion

When a command name is an alias, its value and the arguments already parsed are joined by
blanks and parsed again. The arguments have lost their quotes by then, so they come out
the same only if they can do without. This module determines when a handler receives the
words of the value followed by exactly the arguments that were typed.
-/

import BasC.Cli.ReadCommand
import BasC.Cli.Runs

namespace BasC

open CChar Lib

variable {σ : Type} {env : ArgsEnv} {parser : Parser σ} {world : World σ}
  {map : PrefixMap CString}

/-- The command offered for a command word and an argument text. -/
theorem offered_command (hparser : parser.argsParser = defaultArgsParser env)
    (hmap : world.aliasMap = some map) {word rest : CString} (hword : CommandWord word)
    (hrest : StartsBlank rest) (hoperators : NoOperator rest)
    (hfits : (word ++ rest).length < Buffer.cmdCopy.size) :
    offered .source parser (word ++ rest) world =
      (argWords env (dropTrailingSpaces rest)).bind fun words =>
        ((firstFilling word (.success words)).bind
          (resolveAliases .source env map.get maxAliasExpansions)).map (·, .empty) := by
  rw [offered_eq hparser hmap, readStatement_command hword hrest hoperators hfits, Option.bind_some]
  simp only
  rw [firstFilling_argumentText]
  cases argWords env (dropTrailingSpaces rest) with
  | none => rfl
  | some words => rw [Option.bind_some, Option.bind_some]

theorem resolveAliases_of_alias {limits : Limits} {lookup : CString → Option CString}
    {st : Expanding} {value : CString} (hvalue : lookup st.command.cmdName = some value)
    (left : ℕ) :
    resolveAliases limits env lookup (left + 1) st =
      (argWords env (limits.fit .expandedCmd (aliasText value st.parsedArgv))).bind fun words =>
        (laterFilling limits (.success words)).bind (resolveAliases limits env lookup left) := by
  rw [resolveAliases, hvalue]
  simp only
  rw [laterFilling_argsParse]
  cases argWords env (limits.fit .expandedCmd (aliasText value st.parsedArgv)) with
  | none => rfl
  | some words => rw [Option.bind_some, Option.bind_some]

theorem resolveAliases_of_no_alias {limits : Limits} {lookup : CString → Option CString}
    {st : Expanding} (hnone : lookup st.command.cmdName = none) (left : ℕ) :
    resolveAliases limits env lookup (left + 1) st = some st.command := by
  rw [resolveAliases, hnone]

theorem aliasText_eq (value : CString) {args : List CString} (hne : args ≠ []) :
    aliasText value args = value ++ blank :: List.intercalate [blank] args := by
  have hjoin : args.flatMap (blank :: ·) = blank :: List.intercalate [blank] args := by
    induction args with
    | nil => exact absurd rfl hne
    | cons arg args ih =>
        cases args with
        | nil => simp [List.intercalate]
        | cons next args =>
            rw [List.flatMap_cons, ih (by simp)]
            simp [List.intercalate, List.intersperse]
  rw [aliasText, hjoin]

/-- Behind a text that ends exposed, white space starts a new argument. -/
theorem argWords_append_blank {first : CString} {words : List CString}
    (hstart : argLexicon.scan .start first = .start) (hwords : argWords env first = some words)
    {c : CChar} (hspace : isspace c = true) (second : CString) :
    argWords env (first ++ c :: second) = (argWords env second).map (words ++ ·) := by
  unfold argWords at hwords ⊢
  obtain ⟨raw, hraw, rfl⟩ := Option.map_eq_some_iff.mp hwords
  rw [argLexicon.split_append_blank hstart hraw hspace, Option.map_map, Option.map_map]
  congr 1
  funext later
  simp

theorem argWords_blank_cons (text : CString) :
    argWords env (blank :: text) = argWords env text := by
  have hskip : skipSpaces (blank :: text) = skipSpaces text := by
    have hblank : isspace blank = true := by decide
    simp [skipSpaces, hblank]
  rw [← argWords_skipSpaces, hskip, argWords_skipSpaces]

/-- The arguments that the parser is given: trailing white space of the statement is
gone. -/
theorem argWords_dropTrailingSpaces_blank_cons (text : CString) :
    argWords env (dropTrailingSpaces (blank :: text)) = argWords env (dropTrailingSpaces text) := by
  rw [← List.singleton_append, dropTrailingSpaces_append]
  split
  · rename_i hnil
    rw [hnil]
    rfl
  · exact argWords_blank_cons _

/-- Dropping the white space at the end of the text does not touch an escaped blank. -/
def TrimSafe (text : CString) : Prop :=
  dropTrailingSpaces text = text ∨ argLexicon.scan .start (dropTrailingSpaces text) = .start

theorem split_dropTrailingSpaces {text : CString} (hsafe : TrimSafe text) :
    argLexicon.split (dropTrailingSpaces text) = argLexicon.split text := by
  rcases hsafe with hsame | hstart
  · rw [hsame]
  · obtain ⟨tail, htext, hblank⟩ := exists_dropTrailingSpaces_append text
    have hsplit := argLexicon.splitMarked_append_blanks hstart hblank
    rw [← htext] at hsplit
    rw [Lexicon.split, Lexicon.split, hsplit]

theorem argWords_dropTrailingSpaces {text : CString} (hsafe : TrimSafe text) :
    argWords env (dropTrailingSpaces text) = argWords env text := by
  rw [argWords, argWords, split_dropTrailingSpaces hsafe]

/-- The handlers are offered a command with this argument vector. -/
def HandsOn (parser : Parser σ) (world : World σ) (statement : CString) (argv : List CString) :
    Prop :=
  ∃ command redir, offered .source parser statement world = some (command, redir) ∧
    command.cmdArgc = argv.length ∧ command.cmdArgv = argv.map some ++ [none]

/-- A handler that takes every command is called with this vector exactly then. -/
theorem handsOn_iff_handled (htakes : TakesAll parser) (statement : CString)
    (argv : List CString) :
    HandsOn parser world statement argv ↔ ∃ (index : ℕ) (command : Command) (redir : Redirection),
      .handle index command redir ∈ (executeStatement .source parser statement).trace world ∧
        command.cmdArgc = argv.length ∧ command.cmdArgv = argv.map some ++ [none] := by
  constructor
  · rintro ⟨command, redir, hoffered, hargc, hargv⟩
    obtain ⟨index, hcalled⟩ := (handle_mem_trace_iff htakes _ _ _ _).mpr hoffered
    exact ⟨index, command, redir, hcalled, hargc, hargv⟩
  · rintro ⟨index, command, redir, hcalled, hargc, hargv⟩
    exact ⟨command, redir, (handle_mem_trace_iff htakes _ _ _ _).mp ⟨index, hcalled⟩, hargc, hargv⟩

/-- An alias with a value that starts with no alias, and an argument text, all of which fit
their buffers. -/
structure AliasCall (env : ArgsEnv) (map : PrefixMap CString) (name value : CString)
    (tokens : List CString) (argText : CString) (args : List CString) : Prop where
  name_word : CommandWord name
  lookup_name : map.get name = some value
  value_words : argWords env value = some tokens
  first_not_alias : ∃ first rest, tokens = first :: rest ∧
    map.get (Limits.source.fit .cmdName first) = none
  text_words : argWords env argText = some args
  text_noOperator : NoOperator argText
  statement_fits : (name ++ blank :: argText).length < Buffer.cmdCopy.size
  expansion_fits : (aliasText value args).length < Buffer.expandedCmd.size

/-- The arguments survive being joined and parsed again: there is room for all words, the
argument text does not end in an escaped blank, and either there are no arguments or the
value does not end in an open escape and the blank-joined arguments are parsed into
themselves. -/
structure SurvivesExpansion (env : ArgsEnv) (value : CString) (tokens : List CString)
    (argText : CString) (args : List CString) : Prop where
  room : tokens.length + args.length ≤ 64
  trim : TrimSafe argText
  reread : args = [] ∨ argLexicon.scan .start value = .start ∧
    argWords env (List.intercalate [blank] args) = some args

theorem startsBlank_blank_cons (text : CString) : StartsBlank (blank :: text) := by
  intro c hc
  obtain rfl : blank = c := by simpa using hc
  decide

theorem noOperator_blank_cons {text : CString} (htext : NoOperator text) :
    NoOperator (blank :: text) :=
  List.forall_mem_cons.mpr ⟨by decide, htext⟩

/-- The command offered for an alias call, from the words of the argument text that is
left after trimming. -/
theorem AliasCall.offered_eq {name value argText : CString} {tokens args : List CString}
    (hcall : AliasCall env map name value tokens argText args)
    (hparser : parser.argsParser = defaultArgsParser env) (hmap : world.aliasMap = some map) :
    offered .source parser (name ++ blank :: argText) world =
      (argWords env (dropTrailingSpaces argText)).bind fun words =>
        ((firstFilling name (.success words)).bind
          (resolveAliases .source env map.get maxAliasExpansions)).map (·, .empty) := by
  rw [offered_command hparser hmap hcall.name_word (startsBlank_blank_cons argText)
    (noOperator_blank_cons hcall.text_noOperator) hcall.statement_fits,
    argWords_dropTrailingSpaces_blank_cons]

/-- With room for the arguments, the alias is expanded once and the command is offered
when the first word of the result is no alias. -/
theorem AliasCall.resolve_eq {name value argText : CString} {tokens args : List CString}
    (hcall : AliasCall env map name value tokens argText args) {words : List CString}
    (hroom : words.length < 64) (hfits : (aliasText value words).length < Buffer.expandedCmd.size) :
    (firstFilling name (.success words)).bind
        (resolveAliases .source env map.get maxAliasExpansions) =
      (argWords env (aliasText value words)).bind fun result =>
        (laterFilling .source (.success result)).bind
          (resolveAliases .source env map.get 9) := by
  rw [firstFilling_success name hroom, Option.bind_some]
  have hlookup : map.get (⟨name, words.length + 1, (name :: words).map some ++ [none]⟩ :
      Command).cmdName = some value := hcall.lookup_name
  rw [maxAliasExpansions, resolveAliases_of_alias hlookup, source_fit_eq_self hfits]

/-- What the second parse makes of a value and arguments that survive it. -/
theorem argWords_aliasText {value : CString} {tokens args : List CString}
    (htokens : argWords env value = some tokens)
    (hreread : args = [] ∨ argLexicon.scan .start value = .start ∧
      argWords env (List.intercalate [blank] args) = some args) :
    argWords env (aliasText value args) = some (tokens ++ args) := by
  by_cases hne : args = []
  · simp [hne, aliasText, htokens]
  · obtain ⟨hstart, hargs⟩ := hreread.resolve_left hne
    rw [aliasText_eq value hne, argWords_append_blank hstart htokens (by decide), hargs,
      Option.map_some]

/-- A vector shows its strings. -/
theorem vector_injective {first second : List CString}
    (hsame : first.map some ++ [none] = second.map some ++ [none]) : first = second := by
  rw [List.append_left_inj] at hsame
  exact List.map_injective_iff.mpr (Option.some_injective _) hsame

/-- A result whose first word is no alias is offered as it is. -/
theorem offered_result {first : CString} {rest : List CString}
    (hnone : map.get (Limits.source.fit .cmdName first) = none)
    (hfits : (first :: rest).length < 65) (left : ℕ) :
    (laterFilling .source (.success (first :: rest))).bind
        (resolveAliases .source env map.get (left + 1)) =
      some ⟨Limits.source.fit .cmdName first, (first :: rest).length,
        (first :: rest).map some ++ [none]⟩ := by
  rw [laterFilling_success .source hfits, Option.bind_some, resolveAliases_of_no_alias hnone]

/-- **Enough.** Arguments that survive the expansion reach the handler. -/
theorem AliasCall.handsOn {name value argText : CString} {tokens args : List CString}
    (hcall : AliasCall env map name value tokens argText args)
    (hparser : parser.argsParser = defaultArgsParser env) (hmap : world.aliasMap = some map)
    (hsurvives : SurvivesExpansion env value tokens argText args) :
    HandsOn parser world (name ++ blank :: argText) (tokens ++ args) := by
  obtain ⟨first, rest, rfl, hnone⟩ := hcall.first_not_alias
  have hroom := hsurvives.room
  rw [List.length_cons] at hroom
  have hresult := argWords_aliasText hcall.value_words hsurvives.reread
  have hlength : (first :: (rest ++ args)).length < 65 := by
    rw [List.length_cons, List.length_append]
    omega
  refine ⟨⟨Limits.source.fit .cmdName first, (first :: (rest ++ args)).length,
    (first :: (rest ++ args)).map some ++ [none]⟩, .empty, ?_, rfl, rfl⟩
  rw [hcall.offered_eq hparser hmap, argWords_dropTrailingSpaces hsurvives.trim, hcall.text_words,
    Option.bind_some, hcall.resolve_eq (by omega) hcall.expansion_fits, hresult, Option.bind_some,
    List.cons_append, offered_result hnone hlength]
  rfl

/-! ## What the handler receives shows the condition -/

/-- A command that is offered comes from the second parse. -/
theorem AliasCall.exists_result {name value argText : CString}
    {tokens args words argv : List CString}
    (hcall : AliasCall env map name value tokens argText args)
    (hparser : parser.argsParser = defaultArgsParser env) (hmap : world.aliasMap = some map)
    (hwords : argWords env (dropTrailingSpaces argText) = some words)
    (hcount : (words.length : ℤ) ≤ intMax)
    (hfits : (aliasText value words).length < Buffer.expandedCmd.size)
    (hhands : HandsOn parser world (name ++ blank :: argText) argv) :
    words.length < 64 ∧ ∃ result command, argWords env (aliasText value words) = some result ∧
      (laterFilling .source (.success result)).bind (resolveAliases .source env map.get 9) =
        some command ∧ command.cmdArgv = argv.map some ++ [none] := by
  obtain ⟨command, redir, hoffered, -, hargv⟩ := hhands
  rw [hcall.offered_eq hparser hmap, hwords, Option.bind_some] at hoffered
  have hroom : words.length < 64 := by
    by_contra hmany
    rw [firstFilling_success_eq_none name (by omega) hcount] at hoffered
    simp at hoffered
  rw [hcall.resolve_eq hroom hfits] at hoffered
  obtain ⟨resolved, hresolved, hpair⟩ := Option.map_eq_some_iff.mp hoffered
  obtain ⟨result, hresult, hlater⟩ := Option.bind_eq_some_iff.mp hresolved
  obtain ⟨rfl, -⟩ : resolved = command ∧ Redirection.empty = redir := by simpa using hpair
  exact ⟨hroom, result, resolved, hresult, hlater, hargv⟩

/-- A result whose first word is no alias shows in the vector. -/
theorem result_eq_of_offered {first : CString} {rest argv : List CString} {command : Command}
    (hnone : map.get (Limits.source.fit .cmdName first) = none)
    (hcount : ((first :: rest).length : ℤ) ≤ intMax) {left : ℕ}
    (hlater : (laterFilling .source (.success (first :: rest))).bind
      (resolveAliases .source env map.get (left + 1)) = some command)
    (hargv : command.cmdArgv = argv.map some ++ [none]) :
    first :: rest = argv ∧ argv.length ≤ 64 := by
  have hfits : (first :: rest).length < 65 := by
    by_contra hmany
    rw [laterFilling_success_eq_none .source (by omega) hcount, Option.bind_none] at hlater
    cases hlater
  rw [offered_result hnone hfits, Option.some.injEq] at hlater
  subst hlater
  have hsame := vector_injective hargv
  rw [← hsame]
  exact ⟨rfl, by omega⟩

/-- No text in a buffer of a statement makes more arguments than an `int` counts. -/
def CountsFit (env : ArgsEnv) : Prop :=
  ∀ line words, line.length < 1024 → argWords env line = some words →
    (words.length : ℤ) ≤ intMax

/-- Enumerations of up to two million items are counted. -/
theorem countsFit_of_reportsAtMost {limit : ℕ} (hreports : env.ReportsAtMost limit)
    (hlimit : limit ≤ 2000000) : CountsFit env := by
  intro line words hline hwords
  have hlength := length_argWords_le hreports hwords
  have hbound : (line.length + 1) * (limit + 1) ≤ 1024 * 2000001 :=
    Nat.mul_le_mul (by omega) (by omega)
  unfold intMax
  omega

theorem countsFit_of_no_enum (henum : env.enumFunc = none) : CountsFit env := by
  have hreports : env.ReportsAtMost 0 := by simp [ArgsEnv.ReportsAtMost, henum]
  exact countsFit_of_reportsAtMost hreports (by omega)

/-- The argument text that the parser is given takes less than a buffer. -/
theorem AliasCall.trimmed_fits {name value argText : CString} {tokens args : List CString}
    (hcall : AliasCall env map name value tokens argText args) :
    (dropTrailingSpaces argText).length < 1024 := by
  have hshort := (dropTrailingSpaces_isPrefix argText).length_le
  have hfits := hcall.statement_fits
  have hsize : Buffer.cmdCopy.size = 1024 := rfl
  rw [List.length_append, List.length_cons] at hfits
  omega

/-- With a value that ends exposed and a text that trimming leaves whole, the arguments a
handler receives have survived. -/
theorem AliasCall.survives_of_exposed {name value argText : CString} {tokens args : List CString}
    (hcall : AliasCall env map name value tokens argText args)
    (hparser : parser.argsParser = defaultArgsParser env) (hmap : world.aliasMap = some map)
    (hcount : CountsFit env) (hstart : argLexicon.scan .start value = .start)
    (htrim : TrimSafe argText)
    (hhands : HandsOn parser world (name ++ blank :: argText) (tokens ++ args)) :
    SurvivesExpansion env value tokens argText args := by
  obtain ⟨first, rest, rfl, hnone⟩ := hcall.first_not_alias
  have hwords : argWords env (dropTrailingSpaces argText) = some args :=
    (argWords_dropTrailingSpaces htrim).trans hcall.text_words
  have hresults : ∀ result, argWords env (aliasText value args) = some result →
      (result.length : ℤ) ≤ intMax := fun result => hcount _ result hcall.expansion_fits
  obtain ⟨-, result, command, hresult, hlater, hargv⟩ := hcall.exists_result hparser hmap hwords
    (hcount _ _ hcall.trimmed_fits hwords) hcall.expansion_fits hhands
  by_cases hne : args = []
  · subst hne
    have hvalue : result = first :: rest := by
      have hsame := hcall.value_words
      rw [← List.append_nil value, ← List.flatMap_nil, ← aliasText, hresult] at hsame
      exact Option.some.inj hsame
    subst hvalue
    obtain ⟨-, hroom⟩ := result_eq_of_offered hnone (hresults _ hresult) hlater hargv
    rw [List.append_nil] at hroom
    exact ⟨by simpa using hroom, htrim, .inl rfl⟩
  · have hjoined := hresult
    rw [aliasText_eq value hne,
      argWords_append_blank hstart hcall.value_words (by decide)] at hjoined
    obtain ⟨again, hagain, rfl⟩ := Option.map_eq_some_iff.mp hjoined
    obtain ⟨hsame, hroom⟩ := result_eq_of_offered hnone (hresults _ hresult) hlater hargv
    have hargs : again = args := (List.append_right_inj (first :: rest)).mp hsame
    rw [List.length_append] at hroom
    exact ⟨hroom, htrim, .inr ⟨hstart, hargs ▸ hagain⟩⟩

/-- Nothing is expanded on the way, and alias names can be typed as words. -/
structure NothingExpanded (env : ArgsEnv) (map : PrefixMap CString) (value argText : CString) :
    Prop where
  no_enum : env.enumFunc = none
  value_brace : openBrace ∉ value
  text_brace : openBrace ∉ argText
  names_words : ∀ key entry, map.get key = some entry → ∀ c ∈ key, isspace c = false

/-- Without an enumeration function and braces, the arguments are the words. -/
theorem argWords_eq_split (henum : env.enumFunc = none) {text : CString}
    (hbrace : openBrace ∉ text) : argWords env text = argLexicon.split text := by
  unfold argWords
  cases hsplit : argLexicon.split text with
  | none => rfl
  | some words =>
      have hwords : ∀ word ∈ words, openBrace ∉ word := fun word hword hmem =>
        hbrace (argLexicon.mem_of_split hsplit hword hmem)
      rw [Option.map_some, flatMap_expandedWords_of_no_enum henum hwords]

theorem length_aliasText (value : CString) (args : List CString) :
    (aliasText value args).length = value.length + span args := by
  rw [aliasText, List.length_append, length_flatMap_cons]

/-- Trimming an escaped blank shortens the last argument. -/
theorem trimSafe_or_span_lt {text : CString} {words args : List CString}
    (hwords : argLexicon.split (dropTrailingSpaces text) = some words)
    (hargs : argLexicon.split text = some args) :
    (TrimSafe text ∧ words = args) ∨ span words < span args := by
  by_cases hsafe : TrimSafe text
  · rw [split_dropTrailingSpaces hsafe, hargs] at hwords
    exact .inl ⟨hsafe, (Option.some.inj hwords).symm⟩
  · right
    obtain ⟨hcut, hopen⟩ := not_or.mp hsafe
    obtain ⟨tail, htext, -⟩ := exists_dropTrailingSpaces_append text
    cases tail with
    | nil => exact absurd (htext.trans (List.append_nil _)).symm hcut
    | cons b tail =>
        rw [htext] at hargs
        obtain ⟨front, word, ext, more, rfl, rfl⟩ :=
          argLexicon.split_append_of_open hwords hopen hargs
        simp only [span_append, span_cons, span_nil, List.length_append, List.length_cons]
        omega

/-- A word that is no alias stays none when a blank is glued to it: either the name shows
the blank, which no alias name has, or it is cut before the blank. -/
theorem get_glued_eq_none {word : CString}
    (hnames : ∀ key entry, map.get key = some entry → ∀ c ∈ key, isspace c = false)
    (hnone : map.get (Limits.source.fit .cmdName word) = none) (ext : CString) :
    map.get (Limits.source.fit .cmdName (word ++ blank :: ext)) = none := by
  by_contra hsome
  obtain ⟨entry, hentry⟩ := Option.ne_none_iff_exists'.mp hsome
  by_cases hshort : word.length < 255
  · have hmem : blank ∈ Limits.source.fit .cmdName (word ++ blank :: ext) := by
      show blank ∈ (word ++ blank :: ext).take 255
      rw [List.take_append, List.take_of_length_le (by omega)]
      obtain ⟨room, hroom⟩ : ∃ room, 255 - word.length = room + 1 :=
        ⟨254 - word.length, by omega⟩
      simp [hroom]
    exact absurd (hnames _ _ hentry blank hmem) (by decide)
  · have hcut : Limits.source.fit .cmdName (word ++ blank :: ext) =
        Limits.source.fit .cmdName word := by
      show (word ++ blank :: ext).take 255 = word.take 255
      rw [List.take_append_of_le_length (by omega)]
    rw [hcut, hnone] at hentry
    cases hentry

/-- A value that ends in an open escape swallows the first argument. -/
theorem not_offered_of_open {tokens args result : List CString} {value text : CString}
    {command : Command} (htokens : argLexicon.split value = some tokens)
    (hopen : argLexicon.scan .start value ≠ .start)
    (hresult : argLexicon.split (value ++ blank :: text) = some result)
    (hfirst : ∃ first rest, tokens = first :: rest ∧
      map.get (Limits.source.fit .cmdName first) = none)
    (hnames : ∀ key entry, map.get key = some entry → ∀ c ∈ key, isspace c = false)
    (hcount : (result.length : ℤ) ≤ intMax) {left : ℕ}
    (hlater : (laterFilling .source (.success result)).bind
      (resolveAliases .source env map.get (left + 1)) = some command) :
    command.cmdArgv ≠ (tokens ++ args).map some ++ [none] := by
  obtain ⟨front, word, ext, more, rfl, rfl⟩ :=
    argLexicon.split_append_of_open htokens hopen hresult
  intro hargv
  have hcancel : front ++ (word ++ blank :: ext) :: more = front ++ [word] ++ args → False := by
    intro hsame
    rw [List.append_assoc, List.append_right_inj, List.singleton_append] at hsame
    have hlength := congrArg List.length (List.cons.inj hsame).1
    rw [List.length_append, List.length_cons] at hlength
    omega
  obtain ⟨first, rest, hfirst, hnone⟩ := hfirst
  cases front with
  | cons head front =>
      obtain ⟨rfl, -⟩ := List.cons.inj hfirst
      exact hcancel (result_eq_of_offered hnone hcount hlater hargv).1
  | nil =>
      obtain ⟨rfl, -⟩ := List.cons.inj hfirst
      have hglued := get_glued_eq_none hnames hnone ext
      exact hcancel (result_eq_of_offered hglued hcount hlater hargv).1

/-- Glueing words to a value makes up no braces. -/
theorem openBrace_not_mem_aliasText {value : CString} {words : List CString}
    (hvalue : openBrace ∉ value) (hwords : ∀ word ∈ words, openBrace ∉ word) :
    openBrace ∉ aliasText value words := by
  intro hmem
  rcases List.mem_append.mp hmem with hmem | hmem
  · exact hvalue hmem
  · obtain ⟨word, hword, hc⟩ := List.mem_flatMap.mp hmem
    rcases List.mem_cons.mp hc with heq | hc
    · exact absurd heq (by decide)
    · exact hwords word hword hc

/-- Without expansion, blank-joined arguments are parsed into themselves exactly when each
of them is a plain word: not empty, and without white space, quotes and backslashes. -/
theorem argWords_intercalate_eq_iff (henum : env.enumFunc = none) {args : List CString}
    (hbrace : ∀ arg ∈ args, openBrace ∉ arg) :
    argWords env (List.intercalate [blank] args) = some args ↔
      ∀ arg ∈ args, argLexicon.PlainWord arg := by
  have hjoined : openBrace ∉ List.intercalate [blank] args := by
    by_cases hne : args = []
    · simp [hne, List.intercalate]
    · have hglued := openBrace_not_mem_aliasText (List.not_mem_nil (a := openBrace)) hbrace
      rw [aliasText_eq [] hne] at hglued
      exact fun hmem => hglued (List.mem_cons_of_mem blank hmem)
  rw [argWords_eq_split henum hjoined]
  exact argLexicon.split_intercalate_eq_iff (by decide) args

/-- A handler is reached only through two parses: of the trimmed text, whose words take no
more room than the arguments, and of the value with these words behind it. -/
theorem AliasCall.exists_parses {name value argText : CString} {tokens args argv : List CString}
    (hcall : AliasCall env map name value tokens argText args)
    (hparser : parser.argsParser = defaultArgsParser env) (hmap : world.aliasMap = some map)
    (hplain : NothingExpanded env map value argText)
    (hhands : HandsOn parser world (name ++ blank :: argText) argv) :
    ∃ words result command,
      (TrimSafe argText ∧ words = args ∨ span words < span args) ∧
      argLexicon.split (aliasText value words) = some result ∧
      (result.length : ℤ) ≤ intMax ∧
      (laterFilling .source (.success result)).bind (resolveAliases .source env map.get 9) =
        some command ∧ command.cmdArgv = argv.map some ++ [none] := by
  have henum := hplain.no_enum
  have hargs : argLexicon.split argText = some args :=
    (argWords_eq_split henum hplain.text_brace).symm.trans hcall.text_words
  have htrimmed : openBrace ∉ dropTrailingSpaces argText := fun hmem =>
    hplain.text_brace ((dropTrailingSpaces_isPrefix argText).subset hmem)
  obtain ⟨words, hwords⟩ : ∃ words, argWords env (dropTrailingSpaces argText) = some words := by
    obtain ⟨command, redir, hoffered, -⟩ := hhands
    rw [hcall.offered_eq hparser hmap] at hoffered
    obtain ⟨words, hwords, -⟩ := Option.bind_eq_some_iff.mp hoffered
    exact ⟨words, hwords⟩
  have hsplit : argLexicon.split (dropTrailingSpaces argText) = some words :=
    (argWords_eq_split henum htrimmed).symm.trans hwords
  have htrim := trimSafe_or_span_lt hsplit hargs
  have hfits : (aliasText value words).length < Buffer.expandedCmd.size := by
    have hroom := hcall.expansion_fits
    rw [length_aliasText] at hroom ⊢
    rcases htrim with ⟨-, rfl⟩ | hlt
    · exact hroom
    · omega
  have hcount := countsFit_of_no_enum henum
  obtain ⟨-, result, command, hresult, hlater, hargv⟩ := hcall.exists_result hparser hmap hwords
    (hcount _ _ hcall.trimmed_fits hwords) hfits hhands
  have hbrace := openBrace_not_mem_aliasText hplain.value_brace fun word hword hmem =>
    htrimmed (argLexicon.mem_of_split hsplit hword hmem)
  have hagain : argLexicon.split (aliasText value words) = some result :=
    (argWords_eq_split henum hbrace).symm.trans hresult
  exact ⟨words, result, command, htrim, hagain, hcount _ _ hfits hresult, hlater, hargv⟩

/-- Without expansion, the arguments a handler receives have survived. -/
theorem AliasCall.survives_of_nothingExpanded {name value argText : CString}
    {tokens args : List CString} (hcall : AliasCall env map name value tokens argText args)
    (hparser : parser.argsParser = defaultArgsParser env) (hmap : world.aliasMap = some map)
    (hplain : NothingExpanded env map value argText)
    (hhands : HandsOn parser world (name ++ blank :: argText) (tokens ++ args)) :
    SurvivesExpansion env value tokens argText args := by
  have hvalue : argLexicon.split value = some tokens :=
    (argWords_eq_split hplain.no_enum hplain.value_brace).symm.trans hcall.value_words
  have hargs : argLexicon.split argText = some args :=
    (argWords_eq_split hplain.no_enum hplain.text_brace).symm.trans hcall.text_words
  obtain ⟨words, result, command, htrim, hsplit, hcount, hlater, hargv⟩ :=
    hcall.exists_parses hparser hmap hplain hhands
  obtain ⟨first, rest, htokens, hnone⟩ := hcall.first_not_alias
  by_cases hne : words = []
  · -- Nothing is glued to the value.
    subst hne
    rw [aliasText, List.flatMap_nil, List.append_nil, hvalue, Option.some.injEq] at hsplit
    subst hsplit htokens
    obtain ⟨hsame, hroom⟩ := result_eq_of_offered hnone hcount hlater hargv
    obtain rfl : args = [] := List.self_eq_append_right.mp hsame
    rcases htrim with ⟨hsafe, -⟩ | hlt
    · exact ⟨by simpa using hroom, hsafe, .inl rfl⟩
    · simp at hlt
  rw [aliasText_eq value hne] at hsplit
  by_cases hstart : argLexicon.scan .start value = .start
  · -- The words behind the value are read again by themselves.
    rw [argLexicon.split_append_blank hstart hvalue (by decide)] at hsplit
    obtain ⟨again, hagain, rfl⟩ := Option.map_eq_some_iff.mp hsplit
    subst htokens
    obtain ⟨hsame, hroom⟩ := result_eq_of_offered hnone hcount hlater hargv
    obtain rfl : again = args := (List.append_right_inj (first :: rest)).mp hsame
    rw [List.length_append] at hroom
    rcases htrim with ⟨hsafe, rfl⟩ | hlt
    · have hplainWords := (argLexicon.split_intercalate_eq_iff (by decide) words).mp hagain
      have hbrace : ∀ word ∈ words, openBrace ∉ word := fun word hword hmem =>
        hplain.text_brace (argLexicon.mem_of_split hargs hword hmem)
      exact ⟨hroom, hsafe, .inr ⟨hstart,
        (argWords_intercalate_eq_iff hplain.no_enum hbrace).mpr hplainWords⟩⟩
    · have hle := argLexicon.span_le_of_split hagain
      have hlength := length_intercalate blank hne
      omega
  · exact absurd hargv (not_offered_of_open hvalue hstart hsplit ⟨first, rest, htokens, hnone⟩
      hplain.names_words hcount hlater)

/-- **When one expansion preserves the arguments.** Arguments that survive the expansion
reach the handler. Conversely, when the value ends exposed and the text is trimmed
harmlessly, or when nothing is expanded, arguments that reach the handler have survived. -/
theorem handsOn_alias_iff {name value argText : CString} {tokens args : List CString}
    (hparser : parser.argsParser = defaultArgsParser env) (hmap : world.aliasMap = some map)
    (hcall : AliasCall env map name value tokens argText args) :
    (SurvivesExpansion env value tokens argText args →
        HandsOn parser world (name ++ blank :: argText) (tokens ++ args)) ∧
      ((CountsFit env ∧ argLexicon.scan .start value = .start ∧ TrimSafe argText) ∨
          NothingExpanded env map value argText →
        HandsOn parser world (name ++ blank :: argText) (tokens ++ args) →
        SurvivesExpansion env value tokens argText args) := by
  refine ⟨hcall.handsOn hparser hmap, ?_⟩
  rintro (⟨hcount, hstart, htrim⟩ | hplain) hhands
  · exact hcall.survives_of_exposed hparser hmap hcount hstart htrim hhands
  · exact hcall.survives_of_nothingExpanded hparser hmap hplain hhands

/-- The alias map with `a` for a text. -/
def aliasTo (text : CString) : PrefixMap CString := PrefixMap.create.add (cstr "a") text

theorem aliasTo_get (text key : CString) :
    (aliasTo text).get key = if key = cstr "a" then some text else none := by
  rw [aliasTo, PrefixMap.get_add, PrefixMap.get_create]

/-- A world with that map. -/
def aliasWorld (text : CString) : World PUnit := ⟨some (aliasTo text), ⟨⟩⟩

theorem commandWord_a : CommandWord (cstr "a") where
  ne_nil := by decide +kernel
  not_space := by decide +kernel
  noOperator := by unfold NoOperator; decide +kernel
  not_comment := by decide +kernel
  fits := by decide +kernel

theorem aliasCall_echo {argText : CString} {args : List CString}
    (hwords : argWords bareEnv argText = some args) (hoperators : NoOperator argText)
    (hshort : argText.length < 1000) (hspan : span args < 1000) :
    AliasCall bareEnv (aliasTo (cstr "echo")) (cstr "a") (cstr "echo") [cstr "echo"] argText
      args where
  name_word := commandWord_a
  lookup_name := by rw [aliasTo_get, if_pos rfl]
  value_words := by decide +kernel
  first_not_alias := ⟨cstr "echo", [], rfl, by rw [aliasTo_get]; decide +kernel⟩
  text_words := hwords
  text_noOperator := hoperators
  statement_fits := by
    have hname : (cstr "a").length = 1 := by decide +kernel
    have hsize : Buffer.cmdCopy.size = 1024 := rfl
    rw [List.length_append, List.length_cons]
    omega
  expansion_fits := by
    have hvalue : (cstr "echo").length = 4 := by decide +kernel
    have hsize : Buffer.expandedCmd.size = 1024 := rfl
    rw [length_aliasText]
    omega

/-- The plain argument of `a x` survives. -/
theorem handsOn_alias_plain :
    HandsOn bareParser (aliasWorld (cstr "echo")) (cstr "a" ++ blank :: cstr "x")
      ([cstr "echo"] ++ [cstr "x"]) := by
  have hcall : AliasCall bareEnv (aliasTo (cstr "echo")) (cstr "a") (cstr "echo") [cstr "echo"]
      (cstr "x") [cstr "x"] :=
    aliasCall_echo (by decide +kernel) (by unfold NoOperator; decide +kernel)
      (by decide +kernel) (by decide +kernel)
  apply (handsOn_alias_iff rfl rfl hcall).1
  refine ⟨by decide, .inr ?_, .inr ⟨?_, ?_⟩⟩
  · decide +kernel
  · decide +kernel
  · decide +kernel

/-- The quoted argument of `a "x y"` is torn in two. -/
theorem not_handsOn_alias_quoted_blank :
    AliasCall bareEnv (aliasTo (cstr "echo")) (cstr "a") (cstr "echo") [cstr "echo"]
        (cstr "\"x y\"") [cstr "x y"] ∧
      ¬ HandsOn bareParser (aliasWorld (cstr "echo")) (cstr "a" ++ blank :: cstr "\"x y\"")
        ([cstr "echo"] ++ [cstr "x y"]) ∧
      HandsOn bareParser (aliasWorld (cstr "echo")) (cstr "a" ++ blank :: cstr "\"x y\"")
        [cstr "echo", cstr "x", cstr "y"] := by
  have hcall : AliasCall bareEnv (aliasTo (cstr "echo")) (cstr "a") (cstr "echo") [cstr "echo"]
      (cstr "\"x y\"") [cstr "x y"] :=
    aliasCall_echo (by decide +kernel) (by unfold NoOperator; decide +kernel)
      (by decide +kernel) (by decide +kernel)
  have hoffered : offered .source bareParser (cstr "a" ++ blank :: cstr "\"x y\"")
      (aliasWorld (cstr "echo")) =
      some (⟨cstr "echo", 3, [some (cstr "echo"), some (cstr "x"), some (cstr "y"), none]⟩,
        .empty) := by
    decide +kernel
  refine ⟨hcall, ?_, ⟨_, _, hoffered, by decide, by decide⟩⟩
  rintro ⟨command, redir, hother, -, hargv⟩
  rw [hoffered, Option.some.injEq, Prod.mk.injEq] at hother
  rw [← hother.1] at hargv
  revert hargv
  decide +kernel

end BasC
