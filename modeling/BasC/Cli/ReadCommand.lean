/-
# Reading a command

What the functions behind the command offered give on a statement made of a command word
and an argument text, and on what the built-in argument parser returns for a list of
words.
-/

import BasC.Cli.Offered

namespace BasC

open CChar Lib

theorem dropTrailingSpaces_append (first second : CString) :
    dropTrailingSpaces (first ++ second) =
      if dropTrailingSpaces second = [] then dropTrailingSpaces first
      else first ++ dropTrailingSpaces second := by
  unfold dropTrailingSpaces List.rdropWhile
  rw [List.reverse_append, List.dropWhile_append]
  by_cases hblank : second.reverse.dropWhile isspace = []
  · simp [hblank]
  · rw [if_neg (by simpa using hblank), if_neg (by simpa using hblank)]
    simp

theorem dropTrailingSpaces_idempotent (text : CString) :
    dropTrailingSpaces (dropTrailingSpaces text) = dropTrailingSpaces text :=
  List.rdropWhile_idempotent isspace text

theorem dropTrailingSpaces_isPrefix (text : CString) : dropTrailingSpaces text <+: text :=
  List.rdropWhile_prefix isspace text

/-- A word has no white space to lose. -/
theorem dropTrailingSpaces_of_word {word : CString} (hword : ∀ c ∈ word, isspace c = false) :
    dropTrailingSpaces word = word := by
  apply List.rdropWhile_eq_self_iff.mpr
  intro hne
  simp [hword _ (List.getLast_mem hne)]

/-- Trailing white space goes no further than the last word. -/
theorem dropTrailingSpaces_word_append {word : CString} (hword : ∀ c ∈ word, isspace c = false)
    (rest : CString) : dropTrailingSpaces (word ++ rest) = word ++ dropTrailingSpaces rest := by
  rw [dropTrailingSpaces_append, dropTrailingSpaces_of_word hword]
  split
  · rename_i hnil
    rw [hnil, List.append_nil]
  · rfl

/-- A text that is empty or starts with white space. -/
def StartsBlank (text : CString) : Prop := ∀ c ∈ text.head?, isspace c = true

theorem StartsBlank.of_prefix {text front : CString} (htext : StartsBlank text)
    (hfront : front <+: text) : StartsBlank front := by
  obtain ⟨back, rfl⟩ := hfront
  cases front with
  | nil => simp [StartsBlank]
  | cons c front => exact htext

/-- A word that can be typed as a command and fits the name buffer. -/
structure CommandWord (word : CString) : Prop where
  ne_nil : word ≠ []
  not_space : ∀ c ∈ word, isspace c = false
  noOperator : NoOperator word
  not_comment : word.head? ≠ some hash
  fits : word.length < Buffer.cmdName.size

theorem skipSpaces_word_append {word : CString} (hne : word ≠ [])
    (hword : ∀ c ∈ word, isspace c = false) (rest : CString) :
    skipSpaces (word ++ rest) = word ++ rest := by
  apply skipSpaces_eq_self
  intro c hc
  obtain ⟨d, letters, rfl⟩ := List.exists_cons_of_ne_nil hne
  obtain rfl : d = c := by simpa using hc
  exact hword d List.mem_cons_self

/-- The argument text of a command, as `args_str` points at it. -/
def argumentText (rest : CString) : Option CString :=
  if skipSpaces rest = [] then none else some (skipSpaces rest)

theorem commandWord_append {word rest : CString} (hne : word ≠ [])
    (hword : ∀ c ∈ word, isspace c = false) (hrest : StartsBlank rest) :
    commandWord (word ++ rest) = word := by
  have hkept : ∀ c ∈ word, (!isspace c) = true := fun c hc => by simp [hword c hc]
  rw [commandWord, skipSpaces_word_append hne hword, List.takeWhile_append_of_pos hkept]
  cases rest with
  | nil => simp
  | cons b rest =>
      have hb := hrest b (by simp)
      simp [hb]

theorem argsStr_append {word rest : CString} (hne : word ≠ [])
    (hword : ∀ c ∈ word, isspace c = false) (hrest : StartsBlank rest) :
    argsStr (word ++ rest) = argumentText rest := by
  have hkept : ∀ c ∈ word, (!isspace c) = true := fun c hc => by simp [hword c hc]
  rw [argsStr, skipSpaces_word_append hne hword, List.dropWhile_append_of_pos hkept]
  cases rest with
  | nil => rfl
  | cons b rest =>
      have hb := hrest b (by simp)
      have hskip : skipSpaces (b :: rest) = skipSpaces rest := by simp [skipSpaces, hb]
      rw [argumentText, hskip]
      simp [hb]

theorem noOperator_append {first second : CString} :
    NoOperator (first ++ second) ↔ NoOperator first ∧ NoOperator second :=
  List.forall_mem_append

/-- A text is its trimmed text between white space. -/
theorem exists_trimWhitespace (text : CString) : ∃ spaces tail,
    text = spaces ++ trimWhitespace text ++ tail ∧ (∀ c ∈ spaces, isspace c = true) ∧
      skipSpaces text = trimWhitespace text ++ tail ∧ ∀ c ∈ tail, isspace c = true := by
  obtain ⟨spaces, hspaces, hfront⟩ := exists_spaces_append_skipSpaces text
  obtain ⟨tail, htail, hback⟩ := exists_dropTrailingSpaces_append (skipSpaces text)
  refine ⟨spaces, tail, ?_, hfront, htail, hback⟩
  rw [List.append_assoc, trimWhitespace, ← htail]
  exact hspaces

theorem isOperator_of_isspace {c : CChar} (hspace : isspace c = true) : isOperator c = false := by
  simp only [isOperator, Bool.or_eq_false_iff, decide_eq_false_iff_not]
  refine ⟨⟨?_, ?_⟩, ?_⟩ <;> rintro rfl <;> revert hspace <;> decide

theorem noOperator_trimWhitespace_iff (text : CString) :
    NoOperator (trimWhitespace text) ↔ NoOperator text := by
  obtain ⟨spaces, tail, htext, hspaces, -, htail⟩ := exists_trimWhitespace text
  constructor
  · intro hnone
    rw [htext]
    exact noOperator_append.mpr ⟨noOperator_append.mpr
      ⟨fun c hc => isOperator_of_isspace (hspaces c hc), hnone⟩,
      fun c hc => isOperator_of_isspace (htail c hc)⟩
  · intro hnone
    rw [htext] at hnone
    exact (noOperator_append.mp (noOperator_append.mp hnone).1).2

/-- A trimmed text does not start with white space. -/
theorem skipSpaces_trimWhitespace (text : CString) :
    skipSpaces (trimWhitespace text) = trimWhitespace text := by
  apply skipSpaces_eq_self
  intro c hc
  obtain ⟨back, hback⟩ := dropTrailingSpaces_isPrefix (skipSpaces text)
  have hhead : (skipSpaces text).head? = some c := by
    rw [← hback, List.head?_append_of_ne_nil]
    · exact hc
    · intro hnil
      rw [trimWhitespace, hnil] at hc
      cases hc
  have hnot := List.head?_dropWhile_not isspace text
  rw [← skipSpaces, hhead] at hnot
  simpa using hnot

/-- A command text is its first word and the text behind it. -/
theorem exists_commandWord_append (text : CString) : ∃ rest,
    skipSpaces text = commandWord text ++ rest ∧ StartsBlank rest ∧
      ∀ c ∈ commandWord text, isspace c = false := by
  refine ⟨(skipSpaces text).dropWhile fun c => !isspace c, ?_, ?_, ?_⟩
  · exact List.takeWhile_append_dropWhile.symm
  · intro c hc
    have hnot := List.head?_dropWhile_not (fun c => !isspace c) (skipSpaces text)
    rw [Option.mem_def.mp hc] at hnot
    simpa using hnot
  · intro c hc
    simpa using List.mem_takeWhile_imp hc

theorem commandWord_ne_nil {text : CString} (hblank : trimWhitespace text ≠ []) :
    commandWord (trimWhitespace text) ≠ [] := by
  have hskip := skipSpaces_trimWhitespace text
  rw [commandWord, hskip]
  obtain ⟨c, letters, htext⟩ := List.exists_cons_of_ne_nil hblank
  rw [htext] at hskip ⊢
  have hc : isspace c = false := by
    by_contra hspace
    have hlength := congrArg List.length hskip
    rw [skipSpaces, List.dropWhile_cons_of_pos (by simpa using hspace), List.length_cons] at hlength
    have hle := List.length_dropWhile_le isspace letters
    omega
  simp [hc]

theorem skipComments_trimWhitespace {text : CString}
    (hcomment : (trimWhitespace text).head? ≠ some hash) :
    skipComments (trimWhitespace text) = some (trimWhitespace text) := by
  rw [skipComments, skipSpaces_trimWhitespace, if_neg hcomment]

theorem length_trimWhitespace_le (text : CString) :
    (trimWhitespace text).length ≤ text.length :=
  (dropTrailingSpaces_isPrefix _).length_le.trans (List.length_dropWhile_le isspace text)

theorem parseRedirections_trimWhitespace {text : CString} (hoperators : NoOperator text) :
    parseRedirections (trimWhitespace text) = (trimWhitespace text, .empty) := by
  rw [parseRedirections_of_noOperator ((noOperator_trimWhitespace_iff text).mpr hoperators)]
  exact congrArg (·, Redirection.empty) (dropTrailingSpaces_idempotent (skipSpaces text))

/-- What is read of a statement that fits its buffer. -/
theorem readStatement_eq_some {text : CString} {parts : CString × Option CString × Redirection}
    (hfits : text.length < Buffer.cmdCopy.size) (hread : readStatement .source text = some parts) :
    trimWhitespace text ≠ [] ∧ (trimWhitespace text).head? ≠ some hash ∧
      parts = (Limits.source.fit .cmdName (commandWord (parseRedirections (trimWhitespace text)).1),
        argsStr (parseRedirections (trimWhitespace text)).1,
        (parseRedirections (trimWhitespace text)).2) := by
  have hcopy : Limits.source.fit .cmdCopy (trimWhitespace text) = trimWhitespace text :=
    source_fit_eq_self ((length_trimWhitespace_le text).trans_lt hfits)
  unfold readStatement at hread
  split at hread
  · cases hread
  · rename_i hblank
    by_cases hcomment : (trimWhitespace text).head? = some hash
    · have hnone : skipComments (trimWhitespace text) = none := by
        rw [skipComments, skipSpaces_trimWhitespace, if_pos hcomment]
      rw [hnone] at hread
      cases hread
    · rw [skipComments_trimWhitespace hcomment] at hread
      simp only [hcopy] at hread
      split at hread
      · cases hread
      · exact ⟨hblank, hcomment, (Option.some.inj hread).symm⟩

/-- **A statement without operators.** Its command name is its first word, and its
argument text is what is behind it. -/
theorem readStatement_of_noOperator {text : CString} (hblank : trimWhitespace text ≠ [])
    (hcomment : (trimWhitespace text).head? ≠ some hash) (hoperators : NoOperator text)
    (hfits : text.length < Buffer.cmdCopy.size)
    (hname : (commandWord (trimWhitespace text)).length < Buffer.cmdName.size) :
    readStatement .source text =
      some (commandWord (trimWhitespace text), argsStr (trimWhitespace text), .empty) := by
  have hcopy : Limits.source.fit .cmdCopy (trimWhitespace text) = trimWhitespace text :=
    source_fit_eq_self ((length_trimWhitespace_le text).trans_lt hfits)
  unfold readStatement
  rw [if_neg hblank, skipComments_trimWhitespace hcomment]
  simp only
  rw [hcopy, parseRedirections_trimWhitespace hoperators, source_fit_eq_self hname,
    if_neg (commandWord_ne_nil hblank)]

/-- A command word and an argument text. -/
theorem readStatement_command {word rest : CString} (hword : CommandWord word)
    (hrest : StartsBlank rest) (hoperators : NoOperator rest)
    (hfits : (word ++ rest).length < Buffer.cmdCopy.size) :
    readStatement .source (word ++ rest) =
      some (word, argumentText (dropTrailingSpaces rest), .empty) := by
  have hne := hword.ne_nil
  have hfront := dropTrailingSpaces_isPrefix rest
  have hblank := hrest.of_prefix hfront
  have htrim : trimWhitespace (word ++ rest) = word ++ dropTrailingSpaces rest := by
    rw [trimWhitespace, skipSpaces_word_append hne hword.not_space,
      dropTrailingSpaces_word_append hword.not_space]
  have hcommand := commandWord_append hne hword.not_space hblank
  have hread := @readStatement_of_noOperator (word ++ rest)
  rw [htrim, hcommand, argsStr_append hne hword.not_space hblank] at hread
  apply hread
  · simp [hne]
  · rw [List.head?_append_of_ne_nil _ hne]
    exact hword.not_comment
  · exact noOperator_append.mpr ⟨hword.noOperator, hoperators⟩
  · exact hfits
  · exact hword.fits

/-- A command word alone. -/
theorem readStatement_word {word : CString} (hword : CommandWord word) :
    readStatement .source word = some (word, none, .empty) := by
  have hsizes : Buffer.cmdName.size ≤ Buffer.cmdCopy.size := by decide
  have hread := @readStatement_command word [] hword (by simp [StartsBlank]) (by simp [NoOperator])
    (by rw [List.append_nil]; exact hword.fits.trans_le hsizes)
  rw [List.append_nil] at hread
  exact hread

/-- White space in front of a text changes none of its arguments. -/
theorem argWords_skipSpaces (env : ArgsEnv) (text : CString) :
    argWords env (skipSpaces text) = argWords env text := by
  rw [argWords, argWords, split_skipSpaces]

theorem argWords_nil (env : ArgsEnv) : argWords env [] = some [] := rfl

theorem ArgsOut.success_argc_eq {words : List CString} (hint : (words.length : ℤ) ≤ intMax) :
    (ArgsOut.success words).argc = words.length := by
  rw [success_argc, toInt_eq_self hint]

/-- A result of 0 to 63 arguments puts them behind the command name. -/
theorem firstFilling_of_argc (cmdName : CString) {out : ArgsOut} (hret : out.ret = 0)
    (hlow : 0 ≤ out.argc) (hhigh : out.argc < 64) :
    firstFilling cmdName out =
      some ⟨⟨cmdName, out.argc + 1, (cmdName :: out.strings).map some ++ [none]⟩, out.strings⟩ := by
  have hcount : (out.strings.length : ℤ) = out.argc := by
    rw [out.length_strings]
    omega
  have hslots : slots (firstStores cmdName out.argc out.strings) (out.argc + 1) =
      (cmdName :: out.strings).map some ++ [none] := by
    rw [firstStores_eq cmdName hcount, slots_storesFrom]
    · rfl
    · rw [List.length_cons, List.length_append, List.length_map, ← hcount]
      rfl
  unfold firstFilling
  rw [if_pos ⟨hret, by omega, hhigh⟩, hslots]

/-- Up to 63 arguments follow the command name. -/
theorem firstFilling_success (cmdName : CString) {words : List CString}
    (hfits : words.length < 64) :
    firstFilling cmdName (.success words) =
      some ⟨⟨cmdName, words.length + 1, (cmdName :: words).map some ++ [none]⟩, words⟩ := by
  have hint : (words.length : ℤ) ≤ intMax := by
    unfold intMax
    omega
  have hargc := ArgsOut.success_argc_eq hint
  rw [firstFilling_of_argc cmdName rfl (by omega) (by omega), ArgsOut.success_strings hint, hargc]

/-- More do not fit. -/
theorem firstFilling_success_eq_none (cmdName : CString) {words : List CString}
    (hmany : 64 ≤ words.length) (hint : (words.length : ℤ) ≤ intMax) :
    firstFilling cmdName (.success words) = none := by
  have houtside : ¬ ((ArgsOut.success words).ret = 0 ∧ -1 ≤ (ArgsOut.success words).argc ∧
      (ArgsOut.success words).argc < 64) := by
    rw [ArgsOut.success_argc_eq hint]
    omega
  exact if_neg houtside

theorem firstFilling_initial (cmdName : CString) :
    firstFilling cmdName .initial = firstFilling cmdName (.success []) := by
  rw [firstFilling_success cmdName (by simp)]
  rfl

/-- The first filling, from the words of the argument text. -/
theorem firstFilling_argumentText (env : ArgsEnv) (cmdName rest : CString) :
    firstFilling cmdName (parsedArguments env (argumentText rest)) =
      (argWords env rest).bind fun words => firstFilling cmdName (.success words) := by
  rw [← argWords_skipSpaces, argumentText]
  split
  · rename_i hnil
    rw [hnil, argWords_nil]
    exact firstFilling_initial cmdName
  · rw [parsedArguments, argsParse_eq]
    cases argWords env (skipSpaces rest) with
    | none => rfl
    | some words => rw [Option.elim_some, Option.bind_some]

/-- Without an argument text the outputs are those of an empty text. -/
theorem parsedArguments_argumentText (env : ArgsEnv) (rest : CString) :
    (parsedArguments env (argumentText rest)).ret = (argsParse env rest).ret ∧
      (parsedArguments env (argumentText rest)).argc = (argsParse env rest).argc ∧
      (parsedArguments env (argumentText rest)).strings = (argsParse env rest).strings := by
  have hsame : argsParse env rest = argsParse env (skipSpaces rest) := by
    rw [argsParse_eq, argsParse_eq, argWords_skipSpaces]
  rw [hsame, argumentText]
  split
  · rename_i hnil
    have hempty : argsParse env [] = .success [] := by
      rw [argsParse_eq, argWords_nil, Option.elim_some]
    have hint : (([] : List CString).length : ℤ) ≤ intMax := by decide
    rw [hnil, hempty, ArgsOut.success_argc_eq hint, ArgsOut.success_strings hint]
    exact ⟨rfl, rfl, rfl⟩
  · exact ⟨rfl, rfl, rfl⟩

theorem laterFilling_of_cons (limits : Limits) {out : ArgsOut} {first : CString}
    {rest : List CString} (hstrings : out.strings = first :: rest) :
    laterFilling limits out =
      if out.ret = 0 ∧ out.argc < 65 then
        some ⟨⟨limits.fit .cmdName first, out.argc, (first :: rest).map some ++ [none]⟩,
          first :: rest⟩
      else none := by
  unfold laterFilling
  rw [hstrings]

theorem laterFilling_of_nil (limits : Limits) {out : ArgsOut} (hstrings : out.strings = []) :
    laterFilling limits out = none := by
  unfold laterFilling
  rw [hstrings]

/-- Up to 64 words fill the vector after an expansion. -/
theorem laterFilling_success (limits : Limits) {first : CString} {rest : List CString}
    (hfits : (first :: rest).length < 65) :
    laterFilling limits (.success (first :: rest)) =
      some ⟨⟨limits.fit .cmdName first, (first :: rest).length,
        (first :: rest).map some ++ [none]⟩, first :: rest⟩ := by
  have hint : ((first :: rest).length : ℤ) ≤ intMax := by
    unfold intMax
    omega
  have hinside : (ArgsOut.success (first :: rest)).ret = 0 ∧
      (ArgsOut.success (first :: rest)).argc < 65 := by
    rw [ArgsOut.success_argc_eq hint]
    exact ⟨rfl, by omega⟩
  rw [laterFilling_of_cons limits (ArgsOut.success_strings hint), if_pos hinside,
    ArgsOut.success_argc_eq hint]

/-- More do not fit. -/
theorem laterFilling_success_eq_none (limits : Limits) {words : List CString}
    (hmany : 65 ≤ words.length) (hint : (words.length : ℤ) ≤ intMax) :
    laterFilling limits (.success words) = none := by
  have houtside : ¬ ((ArgsOut.success words).ret = 0 ∧ (ArgsOut.success words).argc < 65) := by
    rw [ArgsOut.success_argc_eq hint]
    omega
  cases words with
  | nil => exact laterFilling_of_nil limits (ArgsOut.success_strings hint)
  | cons first rest =>
      rw [laterFilling_of_cons limits (ArgsOut.success_strings hint), if_neg houtside]

/-- A later filling, from the words of the expanded text. -/
theorem laterFilling_argsParse (limits : Limits) (env : ArgsEnv) (text : CString) :
    laterFilling limits (argsParse env text) =
      (argWords env text).bind fun words => laterFilling limits (.success words) := by
  rw [argsParse_eq]
  cases argWords env text with
  | none => rfl
  | some words => rw [Option.elim_some, Option.bind_some]

end BasC
