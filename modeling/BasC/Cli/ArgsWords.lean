/-
# What the argument parser computes

The first pass of `args_parse` is the quoting automaton at the C lexicon: `parse_arg`
runs it over one word, and the loop around it over the line. The second pass appends, for
each raw word in order, the words it expands to. Together they give `args_parse` as one
function of the automaton's words, from which the round trip of every way of quoting
follows.
-/

import BasC.Cli.Args
import BasC.Lib.QuotingRender

namespace BasC

open CChar Lib

/-- White space separates words, `'` and `"` quote, and a backslash escapes. -/
def argLexicon : Lexicon CChar where
  blank := isspace
  quote := isQuote
  escape c := c = backslash
  blank_not_quote := by
    intro c hblank
    by_contra hquote
    have hspace := isspace_of_isQuote (by simpa using hquote)
    simp [hblank] at hspace
  blank_not_escape := by
    intro c hblank
    by_contra hescape
    obtain rfl : c = backslash := by simpa using hescape
    exact absurd hblank (by decide)
  quote_not_escape := by
    intro c hquote
    simp only [isQuote, Bool.or_eq_true, decide_eq_true_eq] at hquote
    rcases hquote with rfl | rfl <;> decide

@[simp]
theorem argLexicon_blank (c : CChar) : argLexicon.blank c = isspace c := rfl

@[simp]
theorem argLexicon_quote (c : CChar) : argLexicon.quote c = isQuote c := rfl

@[simp]
theorem argLexicon_escape (c : CChar) : argLexicon.escape c = decide (c = backslash) := rfl

/-- A byte that is no white space opens a word. -/
theorem feed_none_of_not_space (words : List (MarkedWord CChar)) {c : CChar}
    (hspace : isspace c = false) :
    argLexicon.feed ⟨words, none, .start⟩ c = argLexicon.feed ⟨words, some [], .start⟩ c := by
  simp [Lexicon.feed, Lexicon.breaks, hspace]

section OneByte

variable {c q : CChar} {line : CString} {result : GrowArray CChar 1}

theorem parseArgLoop_backslash (hescape : c = backslash) (quoteChar : Option CChar) :
    parseArgLoop (c :: line) quoteChar false result = parseArgLoop line quoteChar true result := by
  cases quoteChar <;> simp only [parseArgLoop, if_pos hescape]

theorem parseArgLoop_close (hescape : c ≠ backslash) :
    parseArgLoop (c :: line) (some c) false result = parseArgLoop line none false result := by
  simp [parseArgLoop, hescape]

theorem parseArgLoop_inside (hescape : c ≠ backslash) (hclose : c ≠ q) :
    parseArgLoop (c :: line) (some q) false result =
      parseArgLoop line (some q) false (result.push c) := by
  simp [parseArgLoop, hescape, hclose]

theorem parseArgLoop_open (hescape : c ≠ backslash) (hquote : isQuote c = true) :
    parseArgLoop (c :: line) none false result = parseArgLoop line (some c) false result := by
  have hone : c = singleQuote ∨ c = doubleQuote := by simpa [isQuote] using hquote
  simp only [parseArgLoop, if_neg hescape, if_pos hone]

theorem parseArgLoop_space (hescape : c ≠ backslash) (hquote : isQuote c = false)
    (hspace : isspace c = true) :
    parseArgLoop (c :: line) none false result = (c :: line, none, result) := by
  have hone : ¬ (c = singleQuote ∨ c = doubleQuote) := by simpa [isQuote] using hquote
  simp only [parseArgLoop, if_neg hescape, if_neg hone, if_pos hspace]

theorem parseArgLoop_bare (hescape : c ≠ backslash) (hquote : isQuote c = false)
    (hspace : isspace c = false) :
    parseArgLoop (c :: line) none false result =
      parseArgLoop line none false (result.push c) := by
  have hone : ¬ (c = singleQuote ∨ c = doubleQuote) := by simpa [isQuote] using hquote
  have hnot : ¬ isspace c = true := by simp [hspace]
  simp only [parseArgLoop, if_neg hescape, if_neg hone, if_neg hnot]

end OneByte

/-- `parse_arg` follows the automaton to the end of the line or to the white space behind
the word, and its buffer is the word being read. -/
theorem parseArgLoop_follows (words : List (MarkedWord CChar)) (line : CString)
    (quoteChar : Option CChar) (escaped : Bool) (result : GrowArray CChar 1)
    (current : MarkedWord CChar) (hcurrent : current.map Prod.fst = result.items) :
    ∃ (word : MarkedWord CChar) (scan : Scan CChar),
      word.map Prod.fst = (parseArgLoop line quoteChar escaped result).2.2.items ∧
      scan.quoteChar = (parseArgLoop line quoteChar escaped result).2.1 ∧
      argLexicon.read ⟨words, some current, ⟨quoteChar, escaped⟩⟩ line =
        argLexicon.read ⟨words, some word, scan⟩
          (parseArgLoop line quoteChar escaped result).1 ∧
      ((parseArgLoop line quoteChar escaped result).1 = [] ∨
        scan = .start ∧ ∃ b rest,
          (parseArgLoop line quoteChar escaped result).1 = b :: rest ∧ isspace b = true) := by
  induction line generalizing quoteChar escaped result current with
  | nil => exact ⟨current, ⟨quoteChar, escaped⟩, hcurrent, rfl, rfl, .inl rfl⟩
  | cons c line ih =>
      -- The word after one more byte, kept or dropped, is what the buffer holds next.
      have hkept : ∀ mark, (current ++ [(c, mark)]).map Prod.fst = (result.push c).items := by
        intro mark
        simp [hcurrent]
      rw [Lexicon.read_cons]
      cases escaped with
      | true =>
          rw [argLexicon.feed_escaped words (some current) quoteChar c]
          exact ih quoteChar false (result.push c) _ (hkept true)
      | false =>
          by_cases hescape : c = backslash
          · rw [argLexicon.feed_escape words (some current) quoteChar (by simpa using hescape),
              parseArgLoop_backslash hescape]
            exact ih quoteChar true result _ hcurrent
          have hnot : argLexicon.escape c = false := by simpa using hescape
          cases quoteChar with
          | some q =>
              by_cases hclose : c = q
              · subst hclose
                rw [argLexicon.feed_close words (some current) hnot, parseArgLoop_close hescape]
                exact ih none false result _ hcurrent
              · rw [argLexicon.feed_inside words (some current) hnot hclose,
                  parseArgLoop_inside hescape hclose]
                exact ih (some q) false (result.push c) _ (hkept true)
          | none =>
              cases hquote : isQuote c with
              | true =>
                  rw [argLexicon.feed_open words (some current) hquote,
                    parseArgLoop_open hescape hquote]
                  exact ih (some c) false result _ hcurrent
              | false =>
                  cases hspace : isspace c with
                  | true =>
                      rw [← Lexicon.read_cons, parseArgLoop_space hescape hquote hspace]
                      exact ⟨current, .start, hcurrent, rfl, rfl, .inr ⟨rfl, c, line, rfl, hspace⟩⟩
                  | false =>
                      have hplain : argLexicon.plain c = true :=
                        (argLexicon.plain_eq_true_iff c).mpr ⟨hspace, hquote, hnot⟩
                      have hfeed := argLexicon.feed_of_plain words (some current) hplain
                      rw [Scan.start] at hfeed
                      rw [hfeed, parseArgLoop_bare hescape hquote hspace]
                      exact ih none false (result.push c) _ (hkept false)

theorem parseArg_of_open_quote {c q : CChar} {line rest : CString} {result : GrowArray CChar 1}
    (hspace : isspace c = false)
    (hloop : parseArgLoop (c :: line) none false argBuffer = (rest, some q, result)) :
    parseArg (c :: line) = .unmatchedQuote := by
  have hskip : skipSpaces (c :: line) = c :: line := skipSpaces_eq_self (by simpa using hspace)
  simp only [parseArg, hskip, hloop]

theorem parseArg_of_closed {c : CChar} {line rest : CString} {result : GrowArray CChar 1}
    (hspace : isspace c = false)
    (hloop : parseArgLoop (c :: line) none false argBuffer = (rest, none, result)) :
    parseArg (c :: line) = .arg result.items rest := by
  have hskip : skipSpaces (c :: line) = c :: line := skipSpaces_eq_self (by simpa using hspace)
  simp only [parseArg, hskip, hloop]

/-- The three ways `parse_arg` returns on a line that starts a word, in terms of the words
of that line. -/
theorem parseArg_cases {c : CChar} (hspace : isspace c = false) (line : CString) :
    (parseArg (c :: line) = .unmatchedQuote ∧ argLexicon.split (c :: line) = none) ∨
    ∃ word rest, parseArg (c :: line) = .arg word rest ∧
      argLexicon.split (c :: line) = (argLexicon.split rest).map (word :: ·) := by
  obtain ⟨word, scan, hword, hscan, hread, hrest⟩ := parseArgLoop_follows [] (c :: line) none
    false argBuffer [] rfl
  have hinit : argLexicon.read .init (c :: line) =
      argLexicon.read ⟨[], some [], ⟨none, false⟩⟩ (c :: line) := by
    rw [Lexicon.read_cons, Lexicon.read_cons]
    exact congrArg (argLexicon.read · line) (feed_none_of_not_space [] hspace)
  rw [hread] at hinit
  obtain ⟨⟨rest, quoteChar, result⟩, hloop⟩ :
      ∃ out, parseArgLoop (c :: line) none false argBuffer = out := ⟨_, rfl⟩
  rw [hloop] at hword hscan hinit hrest
  obtain ⟨openQuote, escaped⟩ := scan
  simp only at hword hscan hinit hrest
  subst hscan
  cases openQuote with
  | some q =>
      left
      refine ⟨parseArg_of_open_quote hspace hloop, ?_⟩
      rcases hrest with rfl | ⟨hstart, -⟩
      · rw [Lexicon.split, Lexicon.splitMarked, hinit]
        rfl
      · simp [Scan.start] at hstart
  | none =>
      right
      refine ⟨result.items, rest, parseArg_of_closed hspace hloop, ?_⟩
      rcases hrest with rfl | ⟨hstart, b, rest, rfl, hblank⟩
      · rw [Lexicon.split, Lexicon.splitMarked, hinit]
        simp [Splitter.finish, Splitter.allWords, Lexicon.unmark, hword, Lexicon.split,
          Lexicon.splitMarked, Splitter.init]
      · have htail : argLexicon.split (b :: rest) = argLexicon.split rest := by
          have hblanks : argLexicon.splitMarked ([b] ++ rest) = argLexicon.splitMarked rest :=
            argLexicon.splitMarked_blanks_append (by simpa using hblank) rest
          rw [Lexicon.split, ← List.singleton_append, hblanks, ← Lexicon.split]
        rw [htail, Lexicon.split, Lexicon.splitMarked, hinit,
          argLexicon.read_blank_cons hstart hblank, Splitter.prepend_finish, Lexicon.split,
          Lexicon.splitMarked, Option.map_map, Option.map_map]
        congr 1
        funext words
        simp [Splitter.allWords, Lexicon.unmark, hword]

/-- White space at the front of a line changes none of its words. -/
theorem split_skipSpaces (line : CString) :
    argLexicon.split (skipSpaces line) = argLexicon.split line := by
  obtain ⟨lead, hlead, hblank⟩ := exists_spaces_append_skipSpaces line
  have hsplit := argLexicon.splitMarked_blanks_append hblank (skipSpaces line)
  rw [← hlead] at hsplit
  rw [Lexicon.split, Lexicon.split, hsplit]

/-- **The first pass is the automaton.** -/
theorem rawArgsLoop_eq (p : CString) (rawArgs : GrowArray CString 0) :
    (rawArgsLoop p rawArgs).map GrowArray.items =
      (argLexicon.split p).map (rawArgs.items ++ ·) := by
  fun_induction rawArgsLoop p rawArgs with
  | case1 p rawArgs hskip =>
      rw [← split_skipSpaces, hskip]
      simp [Lexicon.split, Lexicon.splitMarked, Splitter.finish, Splitter.init,
        Splitter.allWords, Lexicon.unmark]
  | case2 p rawArgs c line hskip harg =>
      obtain ⟨hspace, -⟩ := skipSpaces_eq_cons hskip
      rcases parseArg_cases hspace line with ⟨hreturn, -⟩ | ⟨word, rest, hreturn, -⟩ <;>
        simp [harg] at hreturn
  | case3 p rawArgs c line hskip harg =>
      obtain ⟨hspace, -⟩ := skipSpaces_eq_cons hskip
      rcases parseArg_cases hspace line with ⟨-, hsplit⟩ | ⟨word, rest, hreturn, -⟩
      · rw [← split_skipSpaces, hskip, hsplit]
        rfl
      · simp [harg] at hreturn
  | case4 p rawArgs c line hskip arg rest harg ih =>
      obtain ⟨hspace, -⟩ := skipSpaces_eq_cons hskip
      rcases parseArg_cases hspace line with ⟨hreturn, -⟩ | ⟨word, rest', hreturn, hsplit⟩
      · simp [harg] at hreturn
      · obtain ⟨rfl, rfl⟩ : arg = word ∧ rest = rest' := by simpa [harg] using hreturn
        rw [ih, ← split_skipSpaces p, hskip, hsplit, Option.map_map]
        congr 1
        funext words
        simp

theorem rawArgs_eq (line : CString) :
    (rawArgs line).map GrowArray.items = argLexicon.split line := by
  rw [rawArgs, rawArgsLoop_eq]
  simp

/-! ## The second pass -/

/-- The files that the wildcards of one word match. -/
def wildcardMatches (env : ArgsEnv) (arg : CString) : List CString :=
  if (expandWildcard env arg).ret = 0 then (expandWildcard env arg).matchArray else []

/-- What one brace alternative contributes to the argument vector. -/
def wildcardWords (env : ArgsEnv) (arg : CString) : List CString :=
  if containsWildcard arg && decide (0 < (wildcardMatches env arg).length) then
    wildcardMatches env arg
  else [arg]

/-- The calls of the enumeration function made for one brace alternative. -/
def wildcardCalls (env : ArgsEnv) (arg : CString) : List EnumCall :=
  if containsWildcard arg then (expandWildcard env arg).calls else []

/-- The brace alternatives of a raw word, or the word itself. -/
def alternatives (arg : CString) : List CString :=
  if containsBrace arg && !(expandBrace arg).isEmpty then expandBrace arg else [arg]

/-- What one raw word contributes to the argument vector. -/
def expandedWords (env : ArgsEnv) (arg : CString) : List CString :=
  (alternatives arg).flatMap (wildcardWords env)

/-- The calls of the enumeration function made for one raw word. -/
def expandedCalls (env : ArgsEnv) (arg : CString) : List EnumCall :=
  (alternatives arg).flatMap (wildcardCalls env)

theorem addWildcard_spec (env : ArgsEnv) (out : Expansion) (arg : CString) :
    (addWildcard env out arg).args.items = out.args.items ++ wildcardWords env arg ∧
      (addWildcard env out arg).calls = out.calls ++ wildcardCalls env arg := by
  unfold addWildcard wildcardWords wildcardCalls wildcardMatches
  by_cases hwild : containsWildcard arg = true
  · by_cases hret : (expandWildcard env arg).ret = 0
    · by_cases hfound : 0 < (expandWildcard env arg).matchArray.length
      · simp [hwild, hret, hfound]
      · simp [hwild, hret, hfound]
    · simp [hwild, hret]
  · simp [hwild]

theorem foldl_addWildcard_spec (env : ArgsEnv) (out : Expansion) (texts : List CString) :
    (texts.foldl (addWildcard env) out).args.items =
        out.args.items ++ texts.flatMap (wildcardWords env) ∧
      (texts.foldl (addWildcard env) out).calls =
        out.calls ++ texts.flatMap (wildcardCalls env) := by
  induction texts generalizing out with
  | nil => simp
  | cons text texts ih =>
      obtain ⟨hitems, hcalls⟩ := ih (addWildcard env out text)
      obtain ⟨hitem, hcall⟩ := addWildcard_spec env out text
      simp [hitems, hcalls, hitem, hcall]

theorem addArg_spec (env : ArgsEnv) (out : Expansion) (arg : CString) :
    (addArg env out arg).args.items = out.args.items ++ expandedWords env arg ∧
      (addArg env out arg).calls = out.calls ++ expandedCalls env arg := by
  unfold addArg expandedWords expandedCalls alternatives
  by_cases hbrace : containsBrace arg = true
  · cases hexpand : expandBrace arg with
    | nil => simpa [hbrace, hexpand] using addWildcard_spec env out arg
    | cons text texts =>
        simpa [hbrace, hexpand] using foldl_addWildcard_spec env out (text :: texts)
  · simpa [hbrace] using addWildcard_spec env out arg

theorem secondPass_spec (env : ArgsEnv) (rawArgs : List CString) :
    (secondPass env rawArgs).args.items = rawArgs.flatMap (expandedWords env) ∧
      (secondPass env rawArgs).calls = rawArgs.flatMap (expandedCalls env) := by
  have hloop : ∀ out : Expansion,
      (rawArgs.foldl (addArg env) out).args.items =
          out.args.items ++ rawArgs.flatMap (expandedWords env) ∧
        (rawArgs.foldl (addArg env) out).calls =
          out.calls ++ rawArgs.flatMap (expandedCalls env) := by
    induction rawArgs with
    | nil => simp
    | cons arg rawArgs ih =>
        intro out
        obtain ⟨hitems, hcalls⟩ := ih (addArg env out arg)
        obtain ⟨hitem, hcall⟩ := addArg_spec env out arg
        simp [hitems, hcalls, hitem, hcall]
  simpa [secondPass] using hloop ⟨argVector, []⟩

/-- The arguments of a line before their number is converted; `none` on an open quote. -/
def argWords (env : ArgsEnv) (line : CString) : Option (List CString) :=
  (argLexicon.split line).map (List.flatMap (expandedWords env))

theorem argsParse_eq (env : ArgsEnv) (line : CString) :
    argsParse env line = (argWords env line).elim .failure .success := by
  have hraw := rawArgs_eq line
  unfold argsParse argWords
  rw [← hraw]
  cases rawArgs line with
  | none => rfl
  | some raw => simp [(secondPass_spec env raw.items).1]

theorem argsParseCalls_eq (env : ArgsEnv) (line : CString) :
    argsParseCalls env line =
      (argLexicon.split line).elim [] (List.flatMap (expandedCalls env)) := by
  have hraw := rawArgs_eq line
  unfold argsParseCalls
  rw [← hraw]
  cases rawArgs line with
  | none => rfl
  | some raw => simp [(secondPass_spec env raw.items).2]

/-- The parser succeeds exactly when no quote stays open. -/
theorem argsParse_ret_eq_zero_iff (env : ArgsEnv) (line : CString) :
    (argsParse env line).ret = 0 ↔ (argWords env line).isSome = true := by
  rw [argsParse_eq]
  cases argWords env line <;> simp

/-- Every item of a brace pair takes at least one byte of its content. -/
theorem length_braceItems_le (content : CString) :
    (braceItems content).length ≤ content.length := by
  fun_induction braceItems content with
  | case1 content hcontent => simp
  | case2 content c text hcontent hitem =>
      obtain ⟨-, hlength⟩ := skipSpaces_eq_cons hcontent
      rw [List.length_cons] at hlength
      rw [List.length_singleton]
      omega
  | case3 content c text hcontent d rest hitem ih =>
      obtain ⟨-, hlength⟩ := skipSpaces_eq_cons hcontent
      have hsplit := congrArg List.length (braceItem_append none (c :: text))
      rw [hitem, List.length_append, List.length_cons] at hsplit
      rw [List.length_cons]
      split
      · omega
      · rw [List.length_nil]
        omega

theorem length_expandBrace_le (pattern : CString) :
    (expandBrace pattern).length ≤ pattern.length := by
  unfold expandBrace
  cases hstart : strchr pattern openBrace with
  | none => simp
  | some cut =>
      obtain ⟨before, braceStart⟩ := cut
      simp only
      cases hend : strchr braceStart closeBrace with
      | none => simp
      | some cut =>
          obtain ⟨content, braceEnd⟩ := cut
          obtain ⟨rfl, -⟩ := strchr_eq_some hstart
          obtain ⟨rfl, -⟩ := strchr_eq_some hend
          have hitems := length_braceItems_le content.tail
          simp only [List.length_map, List.length_append, List.length_tail] at hitems ⊢
          omega

theorem length_alternatives_le (arg : CString) : (alternatives arg).length ≤ arg.length + 1 := by
  unfold alternatives
  split
  · exact (length_expandBrace_le arg).trans (Nat.le_succ _)
  · rw [List.length_singleton]
    omega

/-- No call of the enumeration function reports more than `limit` items. -/
def ArgsEnv.ReportsAtMost (env : ArgsEnv) (limit : ℕ) : Prop :=
  ∀ enumFunc ∈ env.enumFunc, ∀ call, (enumFunc call).items.length ≤ limit

theorem length_wildcardWords_le {env : ArgsEnv} {limit : ℕ} (hreports : env.ReportsAtMost limit)
    (arg : CString) : (wildcardWords env arg).length ≤ limit + 1 := by
  have harray : (expandWildcard env arg).matchArray.length ≤ limit := by
    unfold expandWildcard
    cases henum : env.enumFunc with
    | none => exact Nat.zero_le limit
    | some enumFunc =>
        simp only
        split
        · exact (List.length_filterMap_le _ _).trans (hreports enumFunc henum _)
        · exact Nat.zero_le limit
  have hmatches : (wildcardMatches env arg).length ≤ limit := by
    unfold wildcardMatches
    split
    · exact harray
    · exact Nat.zero_le limit
  unfold wildcardWords
  split
  · exact hmatches.trans (Nat.le_succ limit)
  · rw [List.length_singleton]
    omega

theorem length_expandedWords_le {env : ArgsEnv} {limit : ℕ} (hreports : env.ReportsAtMost limit)
    (arg : CString) : (expandedWords env arg).length ≤ (arg.length + 1) * (limit + 1) := by
  have hpieces : ∀ texts : List CString,
      (texts.flatMap (wildcardWords env)).length ≤ texts.length * (limit + 1) := by
    intro texts
    induction texts with
    | nil => simp
    | cons text texts ih =>
        have htext := length_wildcardWords_le hreports text
        rw [List.flatMap_cons, List.length_append, List.length_cons, Nat.succ_mul, Nat.add_comm]
        exact Nat.add_le_add ih htext
  exact (hpieces _).trans (Nat.mul_le_mul_right _ (length_alternatives_le arg))

/-- A line makes at most as many arguments as it has bytes, times what one enumeration
reports. -/
theorem length_argWords_le {env : ArgsEnv} {limit : ℕ} (hreports : env.ReportsAtMost limit)
    {line : CString} {words : List CString} (hwords : argWords env line = some words) :
    words.length ≤ (line.length + 1) * (limit + 1) := by
  obtain ⟨raw, hraw, rfl⟩ := Option.map_eq_some_iff.mp hwords
  have hspan : ∀ raw : List CString,
      (raw.flatMap (expandedWords env)).length ≤ span raw * (limit + 1) := by
    intro raw
    induction raw with
    | nil => simp
    | cons arg raw ih =>
        have harg := length_expandedWords_le hreports arg
        rw [List.flatMap_cons, List.length_append, span_cons, Nat.add_mul]
        exact Nat.add_le_add harg ih
  exact (hspan raw).trans (Nat.mul_le_mul_right _ (argLexicon.span_le_of_split hraw))

theorem containsBrace_eq_false {arg : CString} (hbrace : openBrace ∉ arg) :
    containsBrace arg = false := by
  simp [containsBrace, (strchr_eq_none_iff arg openBrace).mpr hbrace]

theorem alternatives_of_no_brace {arg : CString} (hbrace : openBrace ∉ arg) :
    alternatives arg = [arg] := by
  simp [alternatives, containsBrace_eq_false hbrace]

/-- Without an enumeration function a wildcard stands for itself. -/
theorem wildcardWords_of_no_enum {env : ArgsEnv} (henum : env.enumFunc = none)
    (arg : CString) : wildcardWords env arg = [arg] := by
  simp [wildcardWords, wildcardMatches, expandWildcard, henum]

theorem expandedWords_of_no_enum {env : ArgsEnv} (henum : env.enumFunc = none)
    {arg : CString} (hbrace : openBrace ∉ arg) : expandedWords env arg = [arg] := by
  simp [expandedWords, alternatives_of_no_brace hbrace, wildcardWords_of_no_enum henum]

/-- Words that are kept one by one are kept together. -/
theorem flatMap_expandedWords_of_kept {env : ArgsEnv} {words : List CString}
    (hkept : ∀ word ∈ words, expandedWords env word = [word]) :
    words.flatMap (expandedWords env) = words := by
  calc
    _ = words.flatMap fun word => [word] := List.flatMap_congr hkept
    _ = words := by simp

theorem flatMap_expandedWords_of_no_enum {env : ArgsEnv} (henum : env.enumFunc = none)
    {words : List CString} (hbrace : ∀ word ∈ words, openBrace ∉ word) :
    words.flatMap (expandedWords env) = words :=
  flatMap_expandedWords_of_kept fun word hword =>
    expandedWords_of_no_enum henum (hbrace word hword)

/-- **`args_parse` undoes every way of quoting its words.** -/
theorem argsParse_lineText {env : ArgsEnv} (henum : env.enumFunc = none)
    {words : List CString} {line : CString} (hline : argLexicon.LineText words line)
    (hbrace : ∀ word ∈ words, openBrace ∉ word) (hcount : (words.length : ℤ) ≤ intMax) :
    (argsParse env line).ret = 0 ∧ (argsParse env line).argc = words.length ∧
      (argsParse env line).argv = some (words.map some ++ [none]) := by
  have hwords : argWords env line = some words := by
    rw [argWords, argLexicon.split_lineText hline]
    exact congrArg some (flatMap_expandedWords_of_no_enum henum hbrace)
  rw [argsParse_eq, hwords]
  refine ⟨rfl, ?_, rfl⟩
  rw [Option.elim_some, ArgsOut.success_argc, toInt_eq_self hcount]

/-- The round trip at the line `'' "*\\"" `: an empty word, a word with a wildcard and a
quote in it, and white space behind them. -/
theorem argsParse_lineText_quotes :
    (argsParse ⟨none, none⟩ (cstr "'' \"*\\\"\" ")).ret = 0 ∧
      (argsParse ⟨none, none⟩ (cstr "'' \"*\\\"\" ")).argc = 2 ∧
      (argsParse ⟨none, none⟩ (cstr "'' \"*\\\"\" ")).argv =
        some [some [], some [star, doubleQuote], none] := by
  have hfirst : argLexicon.WordText [] [singleQuote, singleQuote] :=
    .single (.quoted (by decide) .nil)
  have hsecond : argLexicon.WordText [star, doubleQuote]
      [doubleQuote, star, backslash, doubleQuote, doubleQuote] :=
    .single (.quoted (by decide)
      (.bare (by decide) (by decide) (.escaped (by decide) .nil)))
  have hline : argLexicon.LineText [[], [star, doubleQuote]] (cstr "'' \"*\\\"\" ") :=
    .word [] (by simp) hfirst (.inr ⟨blank, _, rfl, by decide⟩)
      (.word [blank] (by decide) hsecond (.inr ⟨blank, [], rfl, by decide⟩)
        (.blanks (by decide)))
  exact argsParse_lineText rfl hline (by decide) (by decide)

/-- The vector of any number of the same plain word. -/
theorem argsParse_replicate (count : ℕ) :
    argLexicon.LineText (List.replicate count [star])
        (List.intercalate [blank] (List.replicate count [star])) ∧
      (argsParse ⟨none, none⟩ (List.intercalate [blank] (List.replicate count [star]))).argc =
        toInt count := by
  have hbrace : ∀ word ∈ List.replicate count [star], openBrace ∉ word := by
    intro word hword
    rw [List.eq_of_mem_replicate hword]
    decide
  have hline : argLexicon.LineText (List.replicate count [star])
      (List.intercalate [blank] (List.replicate count [star])) := by
    apply argLexicon.lineText_intercalate (by decide)
    intro word hword
    rw [List.eq_of_mem_replicate hword]
    exact ⟨by decide, by decide⟩
  refine ⟨hline, ?_⟩
  rw [argsParse_eq, argWords, argLexicon.split_lineText hline, Option.map_some,
    flatMap_expandedWords_of_no_enum rfl hbrace, Option.elim_some, ArgsOut.success_argc,
    List.length_replicate]

/-- With more words than the largest `int`, `*argc` is not their number: `2 ^ 31` words
give a negative count. -/
theorem argsParse_argc_wraps :
    ¬ ∀ (words : List CString) (line : CString), argLexicon.LineText words line →
      (∀ word ∈ words, openBrace ∉ word) →
      (argsParse ⟨none, none⟩ line).argc = words.length := by
  intro hall
  obtain ⟨hline, hargc⟩ := argsParse_replicate 2147483648
  have hcount := hall _ _ hline (by
    intro word hword
    rw [List.eq_of_mem_replicate hword]
    decide)
  rw [hargc, List.length_replicate, toInt_succ_intMax] at hcount
  omega

end BasC
