/-
# Lines with an open quote

`parse_arg` starts afresh for every word, yet together the words are read by one automaton
over the line: a quote state and an escape flag. This module writes that automaton down on
its own, with the two quotes by name, and proves that `args_parse` fails exactly where it
ends inside a quote, before anything was stored or enumerated.
-/

import BasC.Cli.ArgsExpansion

namespace BasC

open CChar Lib

/-- Where a reader of the line stands. -/
inductive QuoteState
  | none
  | single
  | double
  deriving DecidableEq

/-- The quote state and the escape flag. -/
structure LineState where
  quote : QuoteState
  escaped : Bool
  deriving DecidableEq

namespace LineState

/-- Before the first byte. -/
def start : LineState := ⟨.none, false⟩

/-- One byte of the line. A backslash makes the next byte ordinary in every state. -/
def step (s : LineState) (c : CChar) : LineState :=
  if s.escaped then { s with escaped := false }
  else if c = backslash then { s with escaped := true }
  else
    match s.quote with
    | .none =>
        if c = singleQuote then { s with quote := .single }
        else if c = doubleQuote then { s with quote := .double }
        else s
    | .single => if c = singleQuote then { s with quote := .none } else s
    | .double => if c = doubleQuote then { s with quote := .none } else s

/-- The state behind the whole line. -/
def ofLine (line : CString) : LineState := line.foldl step start

/-- The state as the quoting automaton has it, which remembers the open quote itself. -/
def toScan (s : LineState) : Scan CChar :=
  { quoteChar :=
      match s.quote with
      | .none => Option.none
      | .single => some singleQuote
      | .double => some doubleQuote
    escaped := s.escaped }

theorem toScan_quoteChar_isSome (s : LineState) :
    s.toScan.quoteChar.isSome = true ↔ s.quote ≠ .none := by
  obtain ⟨quote, escaped⟩ := s
  cases quote <;> simp [toScan]

theorem toScan_step (s : LineState) (c : CChar) :
    (s.step c).toScan = argLexicon.step s.toScan c := by
  obtain ⟨quote, escaped⟩ := s
  cases escaped with
  | true => cases quote <;> rfl
  | false =>
      by_cases hescape : c = backslash
      · cases quote <;> simp [step, toScan, Lexicon.step, hescape]
      · cases quote with
        | none =>
            by_cases hsingle : c = singleQuote
            · subst hsingle
              rfl
            · by_cases hdouble : c = doubleQuote
              · subst hdouble
                rfl
              · simp [step, toScan, Lexicon.step, isQuote, hescape, hsingle, hdouble]
        | single =>
            by_cases hclose : c = singleQuote
            · subst hclose
              rfl
            · simp [step, toScan, Lexicon.step, hescape, hclose]
        | double =>
            by_cases hclose : c = doubleQuote
            · subst hclose
              rfl
            · simp [step, toScan, Lexicon.step, hescape, hclose]

theorem toScan_ofLine (line : CString) : (ofLine line).toScan = argLexicon.scan .start line := by
  have hread : ∀ s : LineState, (line.foldl step s).toScan = argLexicon.scan s.toScan line := by
    induction line with
    | nil => exact fun _ => rfl
    | cons c line ih =>
        intro s
        rw [List.foldl_cons, ih, toScan_step, Lexicon.scan_cons]
  exact hread start

end LineState

/-- The first pass fails exactly when the automaton ends inside a quote. -/
theorem rawArgs_eq_none_iff (line : CString) :
    rawArgs line = none ↔ (LineState.ofLine line).quote ≠ .none := by
  rw [← LineState.toScan_quoteChar_isSome, LineState.toScan_ofLine,
    ← argLexicon.split_eq_none_iff, ← rawArgs_eq, Option.map_eq_none_iff]

/-- A call fails exactly when its first pass does. -/
theorem argsParseRun_ret_eq_iff (history : EnumHistory) (line : CString) :
    (argsParseRun history line).out.ret = -1 ↔ rawArgs line = none := by
  unfold argsParseRun
  cases rawArgs line with
  | none => simp
  | some raw => simp

/-- A backslash at the end of the line does not move the quote state. -/
theorem LineState.ofLine_append_backslash {before : CString} (hbefore : ofLine before = start) :
    (ofLine (before ++ [backslash])).quote = .none := by
  have hlast : ofLine (before ++ [backslash]) = (ofLine before).step backslash := by
    simp [ofLine]
  rw [hlast, hbefore]
  rfl

/-- **`args_parse` rejects exactly unbalanced quotes, atomically.** It fails if and only if
the automaton ends inside a quote, accepts a lone backslash at the end outside quotes, and
where it fails it has not called the enumeration function and hands back nothing. -/
theorem argsParseRun_rejects (history : EnumHistory) (line : CString) :
    ((argsParseRun history line).out.ret = -1 ↔ (LineState.ofLine line).quote ≠ .none) ∧
      (∀ before, line = before ++ [backslash] → LineState.ofLine before = .start →
        (argsParseRun history line).out.ret = 0) ∧
      ((argsParseRun history line).out.ret = -1 →
        (argsParseRun history line).out.argc = 0 ∧
          (argsParseRun history line).out.argv = none ∧
          (argsParseRun history line).calls = []) := by
  refine ⟨?_, ?_, ?_⟩
  · rw [argsParseRun_ret_eq_iff, rawArgs_eq_none_iff]
  · rintro before rfl hbefore
    have hclosed := LineState.ofLine_append_backslash hbefore
    have hraw : rawArgs (before ++ [backslash]) ≠ none := fun hnone =>
      (rawArgs_eq_none_iff _).mp hnone hclosed
    obtain ⟨raw, hraw⟩ := Option.ne_none_iff_exists'.mp hraw
    rw [argsParseRun_of_rawArgs history hraw]
    rfl
  · intro hret
    have hnone := (argsParseRun_ret_eq_iff history line).mp hret
    have hrun : argsParseRun history line = ⟨.failure, [], []⟩ := by
      simp only [argsParseRun, hnone]
    rw [hrun]
    exact ⟨rfl, rfl, rfl⟩

end BasC
