/-
# The cursor of the option parser

Whatever the arguments are, the cursor stays inside them: it is at the start of an element
or behind a letter of a cluster with more letters to come. A call that reports something
moves it on, so the loop over the options ends, and the call of `opt_parse_long` by itself
is never made.
-/

import BasC.Cli.OptParser
import Mathlib.Data.Prod.Lex

namespace BasC

open CChar

/-- A `-` with a letter behind it that is no `-`. -/
def IsCluster (text : CString) : Prop :=
  text[0]? = some dash ∧ text[1]? ≠ none ∧ text[1]? ≠ some dash

/-- The cursor is behind a letter of a cluster, with a letter to come. -/
def OptParser.InCluster (line : CommandLine) (memory : Memory) (parser : OptParser) : Prop :=
  ∃ arg, line.element parser.optind = some arg ∧ parser.currentArg = some arg ∧
    IsCluster (memory.read arg) ∧ 1 ≤ parser.shortOptPos ∧
    parser.shortOptPos < (memory.read arg).length

/-- The cursor is at the start of an element, or behind the last one, or in a cluster. -/
structure OptParser.Valid (line : CommandLine) (memory : Memory) (parser : OptParser) : Prop where
  one_le : 1 ≤ parser.optind
  le_argc : parser.optind ≤ line.argv.length
  position : parser.currentArg = none ∧ parser.shortOptPos = 0 ∨ parser.InCluster line memory

/-- `(optind, short_opt_pos)`, in lexicographic order. -/
def OptParser.cursor (parser : OptParser) : ℕ ×ₗ ℕ := toLex (parser.optind, parser.shortOptPos)

/-- States that calls of `opt_parse_long` lead to. -/
inductive OptReachable (line : CommandLine) (memory : Memory) : OptParser → Memory → Prop
  | init : OptReachable line memory .init memory
  | call {parser : OptParser} {memory' : Memory} :
      OptReachable line memory parser memory' →
      OptReachable line memory (optParseLong line parser memory').parser
        (optParseLong line parser memory').memory

theorem writeEquals_restore (memory : Memory) (optionName : CPointer) :
    writeEquals (writeEquals memory (equalsOf memory optionName) 0)
      (equalsOf memory optionName) CChar.equals.1 = memory := by
  unfold equalsOf
  cases hcut : strchr (memory.read optionName) CChar.equals with
  | none => rfl
  | some cut =>
      obtain ⟨hread, -, after, hafter⟩ := strchr_eq_some hcut
      rw [hafter] at hread
      exact Memory.write_write hread 0

/-- The step over an element of at least two characters, or over a letter of it. -/
def OptParser.Advances (line : CommandLine) (memory : Memory) (parser parser' : OptParser) :
    Prop :=
  ∃ arg, line.element parser.optind = some arg ∧ 2 ≤ (memory.read arg).length ∧
    (parser.optind < parser'.optind ∨
      parser.optind = parser'.optind ∧ parser.shortOptPos < parser'.shortOptPos ∧
        2 ≤ parser'.shortOptPos)

/-- A call that reports something and moves the cursor over whole elements. -/
structure OptCall.MovesOver (line : CommandLine) (parser : OptParser) (memory : Memory)
    (call : OptCall) : Prop where
  reports : call.report ≠ none
  memory_eq : call.memory = memory
  currentArg_eq : call.parser.currentArg = parser.currentArg
  shortOptPos_eq : call.parser.shortOptPos = parser.shortOptPos
  optind_lt : parser.optind < call.parser.optind
  optind_le : parser.optind < line.argv.length → call.parser.optind ≤ line.argv.length

/-- A long option moves the cursor over one element or two. -/
theorem parseLongOption_movesOver (line : CommandLine) (parser : OptParser) (memory : Memory)
    (arg : CPointer) : (parseLongOption line parser memory arg).MovesOver line parser memory := by
  have hrestore := writeEquals_restore memory (arg.add 2)
  have hone : parser.optind < parser.optind + 1 := Nat.lt_succ_self _
  have htwo : parser.optind < parser.optind + 1 + 1 := by omega
  simp only [parseLongOption]
  cases findLongOption line.longopts _ with
  | none => exact ⟨Option.some_ne_none _, hrestore, rfl, rfl, hone, id⟩
  | some found =>
      obtain ⟨index, opt⟩ := found
      cases hequals : equalsOf memory (arg.add 2) with
      | some equals =>
          rw [hequals] at hrestore
          by_cases hrequired : opt.hasArg = 1 <;> by_cases hoptional : opt.hasArg = 2 <;>
            simp only [hrequired, hoptional, reduceIte] <;>
            exact ⟨Option.some_ne_none _, hrestore, rfl, rfl, hone, id⟩
      | none =>
          by_cases hrequired : opt.hasArg = 1
          · by_cases hnext : parser.optind + 1 < line.argv.length
            · simp only [hrequired, hnext, reduceIte]
              exact ⟨Option.some_ne_none _, rfl, rfl, rfl, htwo, fun _ => hnext⟩
            · simp only [hrequired, hnext, reduceIte]
              exact ⟨Option.some_ne_none _, rfl, rfl, rfl, hone, id⟩
          · by_cases hoptional : opt.hasArg = 2 <;> simp only [hrequired, hoptional, reduceIte] <;>
              exact ⟨Option.some_ne_none _, rfl, rfl, rfl, hone, id⟩

/-- A letter stepped over is the last of its cluster, or the cursor stays in the cluster. -/
theorem OptParser.pass_cases (parser : OptParser) (text : CString) :
    text.length ≤ parser.shortOptPos + 1 ∧ parser.pass text = parser.leave ∨
      parser.shortOptPos + 1 < text.length ∧
        parser.pass text = { parser with shortOptPos := parser.shortOptPos + 1 } := by
  simp only [pass, List.getElem?_eq_none_iff]
  split_ifs with hend
  · exact Or.inl ⟨hend, rfl⟩
  · exact Or.inr ⟨Nat.lt_of_not_le hend, rfl⟩

/-- What a letter of a cluster makes of the cursor: it leaves the cluster, or it goes on to
the next letter. -/
def OptParser.Passes (line : CommandLine) (memory : Memory) (arg : CPointer)
    (parser parser' : OptParser) : Prop :=
  parser'.currentArg = none ∧ parser'.shortOptPos = 0 ∧ parser.optind < parser'.optind ∧
      parser'.optind ≤ line.argv.length ∨
    parser'.currentArg = some arg ∧ parser'.optind = parser.optind ∧
      parser'.shortOptPos = (parser.enter arg).shortOptPos + 1 ∧
      parser'.shortOptPos < (memory.read arg).length

theorem OptParser.enter_currentArg (parser : OptParser) (arg : CPointer) :
    (parser.enter arg).currentArg = some arg := by
  by_cases harg : parser.currentArg = some arg <;> simp [enter, harg]

/-- A cluster is read letter by letter. -/
theorem parseShortOption_passes {line : CommandLine} {parser : OptParser} {memory : Memory}
    {arg : CPointer} (hargc : parser.optind < line.argv.length)
    (hletter : (parser.enter arg).shortOptPos < (memory.read arg).length) :
    ∃ call, parseShortOption line parser memory arg = .returned call ∧ call.report ≠ none ∧
      call.memory = memory ∧ parser.Passes line memory arg call.parser := by
  have hcurrent := parser.enter_currentArg arg
  have hoptind := parser.enter_optind arg
  simp only [parseShortOption, List.getElem?_eq_getElem hletter, OptParser.reportLetter,
    OptParser.refuseLetter]
  rcases (parser.enter arg).pass_cases (memory.read arg) with ⟨-, hpass⟩ | ⟨hmore, hpass⟩
  · -- the letter is the last one, so an argument is the next element
    rw [hpass]
    split_ifs with htype hrequired hattached hnext
    all_goals
      refine ⟨_, rfl, by simp, rfl, Or.inl ⟨rfl, rfl, ?_, ?_⟩⟩ <;>
        simp_all only [OptParser.leave] <;> omega
  · -- letters are left, and they are the argument, if there is one
    rw [hpass]
    have hattached : 0 < (parser.enter arg).shortOptPos + 1 ∧
        (memory.read arg)[(parser.enter arg).shortOptPos + 1]? ≠ none :=
      ⟨Nat.succ_pos _, by simpa using hmore⟩
    have hleaves : parser.Passes line memory arg
        { (parser.enter arg).leave with
          optarg := some (arg.add ((parser.enter arg).shortOptPos + 1)) } := by
      refine Or.inl ⟨rfl, rfl, ?_, ?_⟩ <;> simp only [OptParser.leave] <;> omega
    simp only [if_pos hattached]
    split_ifs with htype hrequired hoptional
    · exact ⟨_, rfl, by simp, rfl, hleaves⟩
    · exact ⟨_, rfl, by simp, rfl, hleaves⟩
    all_goals exact ⟨_, rfl, by simp, rfl, Or.inr ⟨hcurrent, hoptind, rfl, hmore⟩⟩

namespace OptParser.Valid

variable {line : CommandLine} {memory : Memory} {parser : OptParser} {arg : CPointer}

/-- Outside clusters the cursor is at the start of an element. -/
theorem at_start (hvalid : parser.Valid line memory) (harg : line.element parser.optind = some arg)
    (hno : ¬ IsCluster (memory.read arg)) :
    parser.currentArg = none ∧ parser.shortOptPos = 0 := by
  rcases hvalid.position with hstart | ⟨arg', harg', -, hcluster, -⟩
  · exact hstart
  · rw [harg, Option.some.injEq] at harg'
    exact absurd (harg' ▸ hcluster) hno

/-- In a cluster there is a letter at the cursor. -/
theorem enter_letter (hvalid : parser.Valid line memory)
    (harg : line.element parser.optind = some arg) (hcluster : IsCluster (memory.read arg)) :
    1 ≤ (parser.enter arg).shortOptPos ∧
      parser.shortOptPos ≤ (parser.enter arg).shortOptPos ∧
      (parser.enter arg).shortOptPos < (memory.read arg).length := by
  have htwo : 1 < (memory.read arg).length := by
    simpa [List.getElem?_eq_none_iff] using hcluster.2.1
  rcases hvalid.position with ⟨hnone, hzero⟩ | ⟨arg', harg', hcurrent, -, hone, hletter⟩
  · simp [enter, hnone, hzero, htwo]
  · rw [harg, Option.some.injEq] at harg'
    subst harg'
    simp [enter, hcurrent, hone, hletter]

/-- The state behind a letter. -/
theorem passes (hargc : parser.optind < line.argv.length) (hone : 1 ≤ parser.optind)
    (harg : line.element parser.optind = some arg) (hcluster : IsCluster (memory.read arg))
    {parser' : OptParser} (hpasses : parser.Passes line memory arg parser') :
    parser'.Valid line memory := by
  rcases hpasses with ⟨hnone, hzero, hlt, hle⟩ | ⟨hcurrent, hoptind, hpos, hletter⟩
  · exact ⟨by omega, hle, Or.inl ⟨hnone, hzero⟩⟩
  · exact ⟨by omega, by omega, Or.inr ⟨arg, hoptind ▸ harg, hcurrent, hcluster, by omega, hletter⟩⟩

/-- **A call from a valid state** returns without calling the function again, leaves the
strings as they were and a valid state behind, and moves the cursor if it reports
something. -/
theorem call (hvalid : parser.Valid line memory) :
    ∃ call, optParseStep line parser memory = .returned call ∧ call.memory = memory ∧
      call.parser.Valid line memory ∧
      (call.report ≠ none → parser.Advances line memory call.parser) := by
  have hstop (parser' : OptParser) (hvalid' : parser'.Valid line memory) :
      ∃ call, parser'.stop memory = .returned call ∧ call.memory = memory ∧
        call.parser.Valid line memory ∧
        (call.report ≠ none → parser.Advances line memory call.parser) :=
    ⟨_, rfl, rfl, hvalid', fun h => absurd rfl h⟩
  have hone := hvalid.one_le
  have hsame : { parser with optarg := none }.Valid line memory :=
    ⟨hone, hvalid.le_argc, hvalid.position⟩
  simp only [optParseStep]
  rw [if_neg (by have := hvalid.le_argc; omega)]
  split_ifs with hend
  · exact hstop _ hsame
  · rw [Nat.not_le] at hend
    cases harg : line.element parser.optind with
    | none => exact hstop _ hsame
    | some arg =>
        have hskip (hno : ¬ IsCluster (memory.read arg)) :
            { parser with optind := parser.optind + 1, optarg := none }.Valid line memory :=
          ⟨Nat.succ_pos _, hend, Or.inl (hvalid.at_start harg hno)⟩
        dsimp only
        split_ifs with hdash hdashes hlong hcluster
        · exact hstop _ hsame
        · exact hstop _ (hskip fun hcluster => hcluster.2.2 (by simp [hdashes]))
        · obtain ⟨-, hmemory, hcurrent, hpos, hlt, hle⟩ :=
            parseLongOption_movesOver line { parser with optarg := none } memory arg
          obtain ⟨hnone, hzero⟩ := hvalid.at_start harg fun hcluster => hcluster.2.2 hlong.1
          refine ⟨_, rfl, hmemory, ⟨by omega, hle hend, Or.inl ⟨hcurrent.trans hnone,
            hpos.trans hzero⟩⟩, fun _ => ⟨arg, harg, ?_, Or.inl hlt⟩⟩
          have hthree : 2 < (memory.read arg).length := by
            simpa [List.getElem?_eq_none_iff] using hlong.2
          omega
        · have hcluster : IsCluster (memory.read arg) := ⟨not_not.mp hdash, hcluster⟩
          obtain ⟨henter, hpos, hletter⟩ := hsame.enter_letter harg hcluster
          have hargc : { parser with optarg := none }.optind < line.argv.length := hend
          obtain ⟨call, hcall, hreport, hmemory, hpasses⟩ := parseShortOption_passes hargc hletter
          refine ⟨call, hcall, hmemory, passes hargc hone harg hcluster hpasses,
            fun _ => ⟨arg, harg, by omega, ?_⟩⟩
          rcases hpasses with ⟨-, -, hlt, -⟩ | ⟨-, hoptind, hpos', -⟩
          · exact Or.inl hlt
          · exact Or.inr ⟨hoptind.symm, by rw [hpos']; exact Nat.lt_succ_of_le hpos, by omega⟩
        · exact hstop _ (hskip fun hno => hcluster hno.2)

end OptParser.Valid

/-- `argv[i]` as a text, empty for `NULL`. -/
def elementText (memory : Memory) (element : Option CPointer) : CString :=
  element.elim [] memory.read

/-- The number of characters in the elements before the `n`-th. -/
def CommandLine.charsBefore (line : CommandLine) (memory : Memory) (n : ℕ) : ℕ :=
  ((line.argv.take n).flatMap (elementText memory)).length

/-- The number of characters in all elements. -/
def CommandLine.charCount (line : CommandLine) (memory : Memory) : ℕ :=
  (line.argv.flatMap (elementText memory)).length

/-- The characters that the cursor has behind it. -/
def OptParser.passed (line : CommandLine) (memory : Memory) (parser : OptParser) : ℕ :=
  line.charsBefore memory parser.optind + parser.shortOptPos

section Characters

variable {line : CommandLine} {memory : Memory} {parser parser' : OptParser}

theorem charsBefore_mono {m n : ℕ} (hle : m ≤ n) :
    line.charsBefore memory m ≤ line.charsBefore memory n :=
  ((List.take_prefix_take_left hle).flatMap _).length_le

theorem charsBefore_le (n : ℕ) : line.charsBefore memory n ≤ line.charCount memory :=
  ((List.take_prefix n line.argv).flatMap _).length_le

theorem charsBefore_succ {n : ℕ} {arg : CPointer} (harg : line.element n = some arg) :
    line.charsBefore memory (n + 1) = line.charsBefore memory n + (memory.read arg).length := by
  rw [CommandLine.charsBefore, List.take_add_one, Option.join_eq_some_iff.mp harg,
    List.flatMap_append, List.length_append]
  simp [CommandLine.charsBefore, elementText]

theorem OptParser.Valid.passed_le (hvalid : parser.Valid line memory) :
    parser.passed line memory ≤ line.charCount memory := by
  rcases hvalid.position with ⟨-, hzero⟩ | ⟨arg, harg, -, -, -, hletter⟩
  · rw [passed, hzero]
    exact charsBefore_le _
  · calc parser.passed line memory ≤ line.charsBefore memory (parser.optind + 1) := by
          rw [passed, charsBefore_succ harg]
          omega
      _ ≤ line.charCount memory := charsBefore_le _

/-- A step of the cursor leaves a character behind, and two from the start of an element. -/
theorem OptParser.Advances.passed_lt (hadvances : parser.Advances line memory parser')
    (hvalid : parser.Valid line memory) :
    parser.passed line memory + 1 ≤ parser'.passed line memory ∧
      (parser.shortOptPos = 0 → parser.passed line memory + 2 ≤ parser'.passed line memory) := by
  obtain ⟨arg, harg, htwo, hnext | ⟨hsame, hlt, hpos⟩⟩ := hadvances
  · have hbefore : line.charsBefore memory (parser.optind + 1) ≤
        line.charsBefore memory parser'.optind := charsBefore_mono hnext
    rw [charsBefore_succ harg] at hbefore
    have hletter : parser.shortOptPos < (memory.read arg).length := by
      rcases hvalid.position with ⟨-, hzero⟩ | ⟨arg', harg', -, -, -, hletter⟩
      · omega
      · rw [harg, Option.some.injEq] at harg'
        exact harg' ▸ hletter
    simp only [passed]
    omega
  · simp only [passed, hsame]
    omega

theorem OptParser.Advances.cursor_lt (hadvances : parser.Advances line memory parser') :
    parser.cursor < parser'.cursor := by
  obtain ⟨arg, -, -, hnext | ⟨hsame, hlt, -⟩⟩ := hadvances
  · exact Prod.Lex.toLex_lt_toLex.mpr (Or.inl hnext)
  · exact Prod.Lex.toLex_lt_toLex.mpr (Or.inr ⟨hsame, hlt⟩)

theorem OptCall.report_ne_none {call : OptCall} (hret : call.ret ≠ -1) : call.report ≠ none :=
  fun hnone => hret (by rw [ret, hnone, Option.getD_none])

/-- From a valid state on the loop makes at most one call for each character ahead, and the
last one. -/
theorem OptParser.Valid.run (hvalid : parser.Valid line memory) :
    ∃ calls, OptRun line parser memory calls ∧
      calls.length + parser.passed line memory ≤ line.charCount memory + 1 := by
  induction hahead : line.charCount memory - parser.passed line memory using Nat.strong_induction_on
    generalizing parser with
  | _ ahead ih =>
      have hpassed := hvalid.passed_le
      obtain ⟨call, hstep, hmemory, hvalid', hmoves⟩ := hvalid.call
      have hcall := optParseLong_of_returned hstep
      by_cases hret : call.ret = -1
      · exact ⟨[call], hcall ▸ OptRun.last (by rw [hcall, hret]), by simp; omega⟩
      · have hlt := (hmoves (OptCall.report_ne_none hret)).passed_lt hvalid
        have hpassed' := hvalid'.passed_le
        obtain ⟨calls, hrun, hbound⟩ := ih _ (by omega) hvalid' rfl
        refine ⟨call :: calls, hcall ▸ OptRun.report (by rwa [hcall]) (by rwa [hcall, hmemory]), ?_⟩
        rw [List.length_cons]
        omega

end Characters

theorem OptParser.valid_init {line : CommandLine} (memory : Memory)
    (hargc : 1 ≤ line.argv.length) : OptParser.init.Valid line memory :=
  ⟨Nat.le_refl 1, hargc, Or.inl ⟨rfl, rfl⟩⟩

/-- States that calls lead to are valid, and `argv` is as it was. -/
theorem OptReachable.valid {line : CommandLine} {memory memory' : Memory} {parser : OptParser}
    (hreach : OptReachable line memory parser memory') (hargc : 1 ≤ line.argv.length) :
    memory' = memory ∧ parser.Valid line memory := by
  induction hreach with
  | init => exact ⟨rfl, OptParser.valid_init memory hargc⟩
  | call hreach ih =>
      obtain ⟨rfl, hvalid⟩ := ih
      obtain ⟨call, hstep, hmemory, hvalid', -⟩ := hvalid.call
      rw [optParseLong_of_returned hstep]
      exact ⟨hmemory, hvalid'⟩

/-- **The cursor stays valid and moves on.** In every state that calls of `opt_parse_long`
lead to the cursor is inside the arguments, the function does not call itself, and a call
that reports something moves the cursor on. The loop over the options makes at most one
call for each character of `argv`, or one call. -/
theorem option_cursor_advances (line : CommandLine) (memory : Memory)
    (hargc : 1 ≤ line.argv.length) :
    (∀ parser memory', OptReachable line memory parser memory' →
      (1 ≤ parser.optind ∧ parser.optind ≤ line.argv.length ∧
        (parser.currentArg = none ∧ parser.shortOptPos = 0 ∨ parser.InCluster line memory')) ∧
      (∀ parser', optParseStep line parser memory' ≠ .reenter parser') ∧
      ((optParseLong line parser memory').report ≠ none →
        parser.cursor < (optParseLong line parser memory').parser.cursor)) ∧
    ∃ calls, OptRun line .init memory calls ∧ calls.length ≤ max 1 (line.charCount memory) := by
  constructor
  · intro parser memory' hreach
    obtain ⟨rfl, hvalid⟩ := hreach.valid hargc
    obtain ⟨call, hstep, -, -, hmoves⟩ := hvalid.call
    refine ⟨⟨hvalid.one_le, hvalid.le_argc, hvalid.position⟩, fun parser' => by simp [hstep], ?_⟩
    rw [optParseLong_of_returned hstep]
    exact fun hreport => (hmoves hreport).cursor_lt
  · have hvalid := OptParser.valid_init memory hargc
    obtain ⟨call, hstep, hmemory, hvalid', hmoves⟩ := hvalid.call
    have hcall := optParseLong_of_returned hstep
    by_cases hret : call.ret = -1
    · exact ⟨[call], hcall ▸ OptRun.last (by rw [hcall, hret]), le_max_left _ _⟩
    · -- the first report leaves two characters behind, so the last call has one to spare
      have hlt := ((hmoves (OptCall.report_ne_none hret)).passed_lt hvalid).2 rfl
      obtain ⟨calls, hrun, hbound⟩ := hvalid'.run
      refine ⟨call :: calls, hcall ▸ OptRun.report (by rwa [hcall]) (by rwa [hcall, hmemory]), ?_⟩
      rw [List.length_cons]
      exact Nat.le_trans (by omega) (Nat.le_max_right 1 _)

/-- The command line `prog -a` with the flag `a`. -/
theorem option_cursor_advances_flag :
    ∃ calls, OptRun ⟨[some ⟨0, 0⟩, some ⟨1, 0⟩], some (cstr "a"), none⟩ .init
      (fun object => if object = 1 then [45, 97] else [112]) calls ∧ calls.length ≤ 3 :=
  (option_cursor_advances ⟨[some ⟨0, 0⟩, some ⟨1, 0⟩], some (cstr "a"), none⟩
    (fun object => if object = 1 then [45, 97] else [112]) (by decide)).2

/-- An empty `argv[0]` alone has no characters, and the loop makes a call. -/
theorem not_charCount_calls :
    ¬ ∃ calls, OptRun ⟨[some ⟨0, 0⟩], none, none⟩ .init (fun _ => []) calls ∧
      calls.length ≤ CommandLine.charCount ⟨[some ⟨0, 0⟩], none, none⟩ fun _ => [] := by
  rintro ⟨calls, hrun, hlength⟩
  cases hrun <;> exact absurd hlength (by simp [CommandLine.charCount, elementText,
    Memory.read, textOf])

end BasC
