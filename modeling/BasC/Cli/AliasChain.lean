/-
# Chained aliases

The value of an alias may start with another alias. The first expansion puts the
arguments behind the value, and `parsed_argv` does not hold the command name then. After
it, `parsed_argv` holds all words, the alias name in front included, and every further
expansion puts all of them behind the next value. So each alias name but the first comes
back as an argument.
-/

import BasC.Cli.AliasExpansion
import BasC.Cli.ArgsLiteral

namespace BasC

open CChar Lib

variable {σ : Type} {env : ArgsEnv} {parser : Parser σ} {world : World σ}
  {map : PrefixMap CString}

/-- A byte without a meaning for the argument parser. -/
def isPlainByte (c : CChar) : Bool := argLexicon.plain c && !isExpansionByte c

theorem isPlainByte_iff (c : CChar) :
    isPlainByte c = true ↔ argLexicon.plain c = true ∧ isExpansionByte c = false := by
  simp [isPlainByte]

/-- A word that the argument parser reads as it is written. -/
def PlainArg (word : CString) : Prop := word ≠ [] ∧ ∀ c ∈ word, isPlainByte c = true

theorem PlainArg.plainWord {word : CString} (hword : PlainArg word) :
    argLexicon.PlainWord word :=
  ⟨hword.1, fun c hc => ((isPlainByte_iff c).mp (hword.2 c hc)).1⟩

theorem PlainArg.literal {word : CString} (hword : PlainArg word) :
    ∀ c ∈ word, isExpansionByte c = false :=
  fun c hc => ((isPlainByte_iff c).mp (hword.2 c hc)).2

/-- A word without expansion bytes is kept, whatever there is to ask for file names. -/
theorem expandedWords_of_literal (env : ArgsEnv) {arg : CString}
    (hliteral : ∀ c ∈ arg, isExpansionByte c = false) : expandedWords env arg = [arg] := by
  have hbytes : ∀ c ∈ arg, isWildcardByte c = false ∧ c ≠ openBrace := by
    intro c hc
    have hexpansion := hliteral c hc
    simpa [isExpansionByte] using hexpansion
  have hbrace : openBrace ∉ arg := fun hmem => (hbytes _ hmem).2 rfl
  have hwild : containsWildcard arg = false := by
    rw [containsWildcard_eq, List.any_eq_false]
    intro c hc
    simp [(hbytes c hc).1]
  have hkept : KeptAsIs env arg :=
    ⟨expandBrace_eq_nil_of_not_containsBrace (containsBrace_eq_false hbrace), .inr hwild⟩
  exact ((expands_to_itself_iff env arg).mpr hkept).1

theorem isExpansionByte_of_isspace {c : CChar} (hspace : isspace c = true) :
    isExpansionByte c = false := by
  simp only [isExpansionByte, isWildcardByte, Bool.or_eq_false_iff, decide_eq_false_iff_not]
  refine ⟨⟨⟨?_, ?_⟩, ?_⟩, ?_⟩ <;> rintro rfl <;> revert hspace <;> decide

/-- On a text without expansion bytes, the arguments are the words. -/
theorem argWords_of_literal (env : ArgsEnv) {text : CString}
    (hliteral : ∀ c ∈ text, isExpansionByte c = false) :
    argWords env text = argLexicon.split text := by
  unfold argWords
  cases hsplit : argLexicon.split text with
  | none => rfl
  | some words =>
      have hwords := flatMap_expandedWords_of_kept fun word hword =>
        expandedWords_of_literal env fun c hc =>
          hliteral c (argLexicon.mem_of_split hsplit hword hc)
      rw [Option.map_some, hwords]

/-- Bytes without a meaning for the argument parser, and white space. -/
def PlainText (text : CString) : Prop := ∀ c ∈ text, isspace c = true ∨ isPlainByte c = true

theorem PlainText.ordinary {text : CString} (hplain : PlainText text) :
    ∀ c ∈ text, argLexicon.quote c = false ∧ argLexicon.escape c = false := by
  intro c hc
  rcases hplain c hc with hspace | hbyte
  · exact ⟨argLexicon.blank_not_quote c hspace, argLexicon.blank_not_escape c hspace⟩
  · exact ((argLexicon.plain_eq_true_iff c).mp ((isPlainByte_iff c).mp hbyte).1).2

theorem PlainText.literal {text : CString} (hplain : PlainText text) :
    ∀ c ∈ text, isExpansionByte c = false := by
  intro c hc
  rcases hplain c hc with hspace | hbyte
  · exact isExpansionByte_of_isspace hspace
  · exact ((isPlainByte_iff c).mp hbyte).2

/-- Plain words joined by blanks are read back, whatever the enumeration function. -/
theorem argWords_intercalate_plain (env : ArgsEnv) {words : List CString}
    (hplain : ∀ word ∈ words, PlainArg word) :
    argWords env (List.intercalate [blank] words) = some words := by
  have hblank : argLexicon.blank blank = true := by decide
  have hsplit := (argLexicon.split_intercalate_eq_iff hblank words).mpr fun word hword =>
    (hplain word hword).plainWord
  have hwords := flatMap_expandedWords_of_kept fun word hword =>
    expandedWords_of_literal env (hplain word hword).literal
  rw [argWords, hsplit, Option.map_some, hwords]

/-- An alias of a chain: its value, and the words of the value. -/
structure Link where
  value : CString
  head : CString
  tail : List CString

namespace Link

/-- The words of the value. -/
def tokens (link : Link) : List CString := link.head :: link.tail

/-- The value is made of plain words with white space between them, and the first of them
fits the name buffer. -/
structure Plain (link : Link) : Prop where
  letters : ∀ c ∈ link.value, isspace c = true ∨ isPlainByte c = true
  words : argLexicon.split link.value = some link.tokens
  head_fits : link.head.length < Buffer.cmdName.size

theorem Plain.ordinary {link : Link} (hplain : link.Plain) :
    ∀ c ∈ link.value, argLexicon.quote c = false ∧ argLexicon.escape c = false :=
  PlainText.ordinary hplain.letters

theorem Plain.literal {link : Link} (hplain : link.Plain) :
    ∀ c ∈ link.value, isExpansionByte c = false :=
  PlainText.literal hplain.letters

theorem Plain.plainArgs {link : Link} (hplain : link.Plain) :
    ∀ word ∈ link.tokens, PlainArg word := by
  intro word hword
  have hordinary := hplain.ordinary
  have hwords := argLexicon.plainWords_of_split (fun c hc => (hordinary c hc).1)
    (fun c hc => (hordinary c hc).2) hplain.words word hword
  refine ⟨hwords.1, fun c hc => (isPlainByte_iff c).mpr ⟨hwords.2 c hc, ?_⟩⟩
  exact hplain.literal c (argLexicon.mem_of_split hplain.words hword hc)

theorem Plain.argWords_value {link : Link} (hplain : link.Plain) :
    argWords env link.value = some link.tokens :=
  (argWords_of_literal env hplain.literal).trans hplain.words

end Link

/-- The value of each alias starts with the next alias, and the last value with none. -/
inductive AliasChain (map : PrefixMap CString) : CString → List Link → Prop
  | last {name : CString} {link : Link} (hget : map.get name = some link.value)
      (hplain : link.Plain) (hnone : map.get link.head = none) : AliasChain map name [link]
  | step {name : CString} {link : Link} {links : List Link}
      (hget : map.get name = some link.value) (hplain : link.Plain)
      (hrest : AliasChain map link.head links) : AliasChain map name (link :: links)

theorem AliasChain.ne_nil {name : CString} {links : List Link}
    (hchain : AliasChain map name links) :
    links ≠ [] := by
  cases hchain <;> exact List.cons_ne_nil _ _

/-- The words that a chain should come to: each value takes the place of the alias name in
front. -/
def composed : List Link → List CString → List CString
  | [], words => words
  | [link], words => link.tokens ++ words
  | link :: next :: links, words => composed (next :: links) (link.tail ++ words)

/-- The words that a chain comes to: each value is put in front of all words. -/
def stacked : List Link → List CString → List CString
  | [], words => words
  | link :: links, words => stacked links (link.tokens ++ words)

/-- Every expanded text fits its buffer. -/
def ExpansionsFit : List Link → List CString → Prop
  | [], _ => True
  | link :: links, words => (aliasText link.value words).length < Buffer.expandedCmd.size ∧
      ExpansionsFit links (link.tokens ++ words)

theorem length_stacked (links : List Link) (words : List CString) :
    (stacked links words).length =
      (links.map fun link => link.tokens.length).sum + words.length := by
  induction links generalizing words with
  | nil => simp [stacked]
  | cons link links ih =>
      rw [stacked, ih, List.length_append, List.map_cons, List.sum_cons]
      omega

theorem length_composed {links : List Link} (hne : links ≠ []) (words : List CString) :
    (composed links words).length + links.length =
      (links.map fun link => link.tokens.length).sum + words.length + 1 := by
  fun_induction composed links words with
  | case1 words => exact absurd rfl hne
  | case2 link words =>
      rw [List.length_append, List.map_singleton, List.sum_singleton, List.length_singleton]
  | case3 link next links words ih =>
      have hrest := ih (List.cons_ne_nil _ _)
      have htokens : link.tokens.length = link.tail.length + 1 := rfl
      rw [List.length_append] at hrest
      rw [List.length_cons, List.map_cons, List.sum_cons]
      omega

/-- Each alias but the last leaves its next name behind. -/
theorem length_stacked_eq {links : List Link} (hne : links ≠ []) (words : List CString) :
    (stacked links words).length + 1 = (composed links words).length + links.length := by
  rw [length_composed hne, length_stacked]

theorem length_le_stacked (links : List Link) (words : List CString) :
    words.length ≤ (stacked links words).length := by
  rw [length_stacked]
  omega

theorem length_lt_stacked {links : List Link} (hne : links ≠ []) (words : List CString) :
    words.length < (stacked links words).length := by
  obtain ⟨link, rest, rfl⟩ := List.exists_cons_of_ne_nil hne
  calc
    words.length < (link.tokens ++ words).length := by
      rw [List.length_append, Link.tokens, List.length_cons]
      omega
    _ ≤ (stacked (link :: rest) words).length := length_le_stacked rest _

/-! ## What the alias loop does on a chain -/

/-- The command with these words as its vector. -/
def Command.ofWords (words : List CString) : Command :=
  ⟨words.headD [], words.length, words.map some ++ [none]⟩

/-- **One round.** The words of the value are put in front of all words. -/
theorem resolveAliases_link {link : Link} (hplain : link.Plain) {st : Expanding}
    (hget : map.get st.command.cmdName = some link.value)
    (hwords : ∀ word ∈ st.parsedArgv, PlainArg word)
    (hfits : (aliasText link.value st.parsedArgv).length < Buffer.expandedCmd.size) (left : ℕ) :
    resolveAliases .source env map.get (left + 1) st =
      if (link.tokens ++ st.parsedArgv).length < 65 then
        resolveAliases .source env map.get left
          ⟨.ofWords (link.tokens ++ st.parsedArgv), link.tokens ++ st.parsedArgv⟩
      else none := by
  have hstart := argLexicon.scan_start_of_ordinary hplain.ordinary
  have hresult := argWords_aliasText hplain.argWords_value
    (.inr ⟨hstart, argWords_intercalate_plain env hwords⟩)
  have hhead : Limits.source.fit .cmdName link.head = link.head :=
    source_fit_eq_self hplain.head_fits
  rw [resolveAliases_of_alias hget, source_fit_eq_self hfits, hresult, Option.bind_some,
    Link.tokens, List.cons_append]
  split
  · rename_i hroom
    rw [laterFilling_success .source hroom, Option.bind_some, hhead]
    rfl
  · rename_i hmany
    have hcount : ((link.head :: (link.tail ++ st.parsedArgv)).length : ℤ) ≤ intMax := by
      have hspan := length_le_span st.parsedArgv
      have htokens := argLexicon.span_le_of_split hplain.words
      have hlength : link.tail.length + 1 ≤ span link.tokens := length_le_span link.tokens
      have hsize : Buffer.expandedCmd.size = 1024 := rfl
      rw [length_aliasText] at hfits
      rw [List.length_cons, List.length_append]
      unfold intMax
      omega
    rw [laterFilling_success_eq_none .source (by omega) hcount, Option.bind_none]

/-- **A whole chain.** With room for the words, the loop ends with all of them stacked. -/
theorem AliasChain.resolve_eq {name : CString} {links : List Link}
    (hchain : AliasChain map name links) {st : Expanding} (hname : st.command.cmdName = name)
    (hwords : ∀ word ∈ st.parsedArgv, PlainArg word) (hfits : ExpansionsFit links st.parsedArgv)
    (left : ℕ) :
    resolveAliases .source env map.get (left + 1 + links.length) st =
      if (stacked links st.parsedArgv).length < 65 then
        some (.ofWords (stacked links st.parsedArgv))
      else none := by
  induction hchain generalizing st with
  | @last name link hget hplain hnone =>
      subst hname
      have hstacked : stacked [link] st.parsedArgv = link.tokens ++ st.parsedArgv := rfl
      rw [List.length_singleton, resolveAliases_link hplain hget hwords hfits.1, hstacked]
      by_cases hroom : (link.tokens ++ st.parsedArgv).length < 65
      · rw [if_pos hroom, if_pos hroom]
        apply resolveAliases_of_no_alias
        exact hnone
      · rw [if_neg hroom, if_neg hroom]
  | @step name link links hget hplain hrest ih =>
      subst hname
      have hstacked : stacked (link :: links) st.parsedArgv =
          stacked links (link.tokens ++ st.parsedArgv) := rfl
      rw [List.length_cons, ← Nat.add_assoc, resolveAliases_link hplain hget hwords hfits.1,
        hstacked]
      have hnext : ∀ word ∈ link.tokens ++ st.parsedArgv, PlainArg word := by
        intro word hword
        rcases List.mem_append.mp hword with hword | hword
        · exact hplain.plainArgs word hword
        · exact hwords word hword
      by_cases hroom : (link.tokens ++ st.parsedArgv).length < 65
      · rw [if_pos hroom]
        exact ih rfl hnext hfits.2
      · have hmany := length_le_stacked links (link.tokens ++ st.parsedArgv)
        rw [if_neg hroom, if_neg (by omega)]

/-- A chain of two to nine aliases and plain arguments, with room in all buffers. -/
structure ChainCall (map : PrefixMap CString) (name : CString) (links : List Link)
    (args : List CString) : Prop where
  name_word : CommandWord name
  chain : AliasChain map name links
  chained : 2 ≤ links.length
  bounded : links.length ≤ 9
  plain : ∀ arg ∈ args, PlainArg arg
  noOperator : ∀ arg ∈ args, NoOperator arg
  statement_fits : (aliasText name args).length < Buffer.cmdCopy.size
  expansions_fit : ExpansionsFit links args

theorem startsBlank_flatMap (words : List CString) : StartsBlank (words.flatMap (blank :: ·)) := by
  cases words with
  | nil => simp [StartsBlank]
  | cons word words => exact startsBlank_blank_cons _

theorem noOperator_flatMap {words : List CString} (hwords : ∀ word ∈ words, NoOperator word) :
    NoOperator (words.flatMap (blank :: ·)) := by
  intro c hc
  obtain ⟨word, hword, hmem⟩ := List.mem_flatMap.mp hc
  exact noOperator_blank_cons (hwords word hword) c hmem

/-- Plain arguments behind blanks are read as they are. -/
theorem argWords_flatMap_plain (env : ArgsEnv) {args : List CString}
    (hplain : ∀ arg ∈ args, PlainArg arg) :
    argWords env (dropTrailingSpaces (args.flatMap (blank :: ·))) = some args := by
  have hordinary : ∀ c ∈ dropTrailingSpaces (args.flatMap (blank :: ·)),
      argLexicon.quote c = false ∧ argLexicon.escape c = false := by
    intro c hc
    obtain ⟨arg, harg, hmem⟩ :=
      List.mem_flatMap.mp ((dropTrailingSpaces_isPrefix _).subset hc)
    rcases List.mem_cons.mp hmem with rfl | hmem
    · decide
    · exact ((argLexicon.plain_eq_true_iff c).mp ((hplain arg harg).plainWord.2 c hmem)).2
  have hsafe : TrimSafe (args.flatMap (blank :: ·)) :=
    .inr (argLexicon.scan_start_of_ordinary hordinary)
  rw [argWords_dropTrailingSpaces hsafe]
  exact argWords_aliasText (argWords_nil env)
    (.inr ⟨argLexicon.scan_nil .start, argWords_intercalate_plain env hplain⟩)

/-- **The command offered for a chain.** Its vector holds the stacked words, if they fit. -/
theorem ChainCall.offered_eq {name : CString} {links : List Link} {args : List CString}
    (hcall : ChainCall map name links args) (hparser : parser.argsParser = defaultArgsParser env)
    (hmap : world.aliasMap = some map) :
    offered .source parser (aliasText name args) world =
      if (stacked links args).length < 65 then some (.ofWords (stacked links args), .empty)
      else none := by
  rw [aliasText, offered_command hparser hmap hcall.name_word (startsBlank_flatMap args)
    (noOperator_flatMap hcall.noOperator) hcall.statement_fits,
    argWords_flatMap_plain env hcall.plain, Option.bind_some]
  by_cases hroom : args.length < 64
  · obtain ⟨left, hleft⟩ : ∃ left, maxAliasExpansions = left + 1 + links.length := by
      have hbounded := hcall.bounded
      exact ⟨9 - links.length, by unfold maxAliasExpansions; omega⟩
    rw [firstFilling_success name hroom, Option.bind_some, hleft,
      hcall.chain.resolve_eq rfl hcall.plain hcall.expansions_fit]
    split <;> rfl
  · have hmany := length_lt_stacked hcall.chain.ne_nil args
    have hcount : (args.length : ℤ) ≤ intMax := by
      have hspan := length_le_span args
      have hfits := hcall.statement_fits
      have hsize : Buffer.cmdCopy.size = 1024 := rfl
      rw [length_aliasText] at hfits
      unfold intMax
      omega
    rw [firstFilling_success_eq_none name (by omega) hcount, if_neg (by omega)]
    rfl

/-- **Chained aliases do not compose.** The handler never receives the words that a chain
should come to. It receives the stacked words, in which every alias name but the first
comes back, or, when these are more than 64, it is not called. -/
theorem not_handsOn_composed {name : CString} {links : List Link} {args : List CString}
    (hparser : parser.argsParser = defaultArgsParser env) (hmap : world.aliasMap = some map)
    (hcall : ChainCall map name links args) :
    ¬ HandsOn parser world (aliasText name args) (composed links args) ∧
      (HandsOn parser world (aliasText name args) (stacked links args) ↔
        (stacked links args).length ≤ 64) := by
  have hoffered := hcall.offered_eq hparser hmap
  constructor
  · rintro ⟨command, redir, hsome, -, hargv⟩
    rw [hoffered] at hsome
    split at hsome
    · rw [Option.some.injEq, Prod.mk.injEq] at hsome
      rw [← hsome.1] at hargv
      have hsame : stacked links args = composed links args := vector_injective hargv
      have hlength := length_stacked_eq hcall.chain.ne_nil args
      have hchained := hcall.chained
      rw [hsame] at hlength
      omega
    · cases hsome
  · constructor
    · rintro ⟨command, redir, hsome, -⟩
      rw [hoffered] at hsome
      split at hsome
      · omega
      · cases hsome
    · intro hroom
      rw [if_pos (by omega)] at hoffered
      exact ⟨_, _, hoffered, rfl, rfl⟩

/-- The alias map with `a` for `b` and `b` for `echo`. -/
def echoChain : PrefixMap CString :=
  (PrefixMap.create.add (cstr "b") (cstr "echo")).add (cstr "a") (cstr "b")

/-- A world with that map. -/
def chainWorld : World PUnit := ⟨some echoChain, ⟨⟩⟩

def echoLinks : List Link := [⟨cstr "b", cstr "b", []⟩, ⟨cstr "echo", cstr "echo", []⟩]

theorem echoChain_get (key : CString) :
    echoChain.get key = if key = cstr "a" then some (cstr "b")
      else if key = cstr "b" then some (cstr "echo") else none := by
  rw [echoChain, PrefixMap.get_add, PrefixMap.get_add, PrefixMap.get_create]

theorem echoChain_call : ChainCall echoChain (cstr "a") echoLinks [cstr "x"] where
  name_word := commandWord_a
  chain := by
    apply AliasChain.step
    · rw [echoChain_get, if_pos rfl]
    · exact ⟨by decide +kernel, by decide +kernel, by decide +kernel⟩
    · apply AliasChain.last
      · rw [echoChain_get]
        decide +kernel
      · exact ⟨by decide +kernel, by decide +kernel, by decide +kernel⟩
      · rw [echoChain_get]
        decide +kernel
  chained := le_rfl
  bounded := by decide
  plain := by
    intro arg harg
    rw [List.mem_singleton.mp harg]
    exact ⟨by decide +kernel, by decide +kernel⟩
  noOperator := by
    intro arg harg
    rw [List.mem_singleton.mp harg]
    unfold NoOperator
    decide +kernel
  statement_fits := by decide +kernel
  expansions_fit := ⟨by decide +kernel, by decide +kernel, trivial⟩

/-- `a x` does not come to `echo x`. -/
theorem not_handsOn_composed_echo :
    ¬ HandsOn bareParser chainWorld (aliasText (cstr "a") [cstr "x"])
      (composed echoLinks [cstr "x"]) :=
  (not_handsOn_composed rfl rfl echoChain_call).1

/-- It calls the handler with `echo b x`, so the expanded alias `b` is an argument. -/
theorem handsOn_echo_b_x :
    ChainCall echoChain (cstr "a") echoLinks [cstr "x"] ∧
      composed echoLinks [cstr "x"] = [cstr "echo", cstr "x"] ∧
      HandsOn bareParser chainWorld (aliasText (cstr "a") [cstr "x"])
        [cstr "echo", cstr "b", cstr "x"] ∧
      ¬ HandsOn bareParser chainWorld (aliasText (cstr "a") [cstr "x"])
        [cstr "echo", cstr "x"] := by
  have hoffered : offered .source bareParser (aliasText (cstr "a") [cstr "x"]) chainWorld =
      some (⟨cstr "echo", 3, [some (cstr "echo"), some (cstr "b"), some (cstr "x"), none]⟩,
        .empty) := by
    decide +kernel
  refine ⟨echoChain_call, rfl, ⟨_, _, hoffered, by decide, by decide⟩, ?_⟩
  rintro ⟨command, redir, hother, -, hargv⟩
  rw [hoffered, Option.some.injEq, Prod.mk.injEq] at hother
  rw [← hother.1] at hargv
  revert hargv
  decide +kernel

end BasC
