/-
# What the option parser makes of each element

A loop over the options is a chain of turns, and each turn covers the positions of `argv`
between its cursor before and its cursor behind. So every position that the loop has behind
it was covered by a turn, and what a turn does to the positions it covers decides what the
loop does to `argv`: which elements it takes for operands, and which texts it drops.
-/

import BasC.Cli.OptRender

namespace BasC

open CChar

/-- A call of the loop with the state that it finds. -/
structure OptTurn where
  before : OptParser
  call : OptCall

/-- The turns of a loop that makes these calls. -/
def turns (parser : OptParser) : List OptCall → List OptTurn
  | [] => []
  | call :: calls => ⟨parser, call⟩ :: turns call.parser calls

/-- The state that the loop leaves. -/
def finalParser (parser : OptParser) : List OptCall → OptParser
  | [] => parser
  | call :: calls => finalParser call.parser calls

@[simp]
theorem turns_cons (parser : OptParser) (call : OptCall) (calls : List OptCall) :
    turns parser (call :: calls) = ⟨parser, call⟩ :: turns call.parser calls := rfl

@[simp]
theorem finalParser_cons (parser : OptParser) (call : OptCall) (calls : List OptCall) :
    finalParser parser (call :: calls) = finalParser call.parser calls := rfl

/-- The turn has the position behind it, and had it ahead. -/
def OptTurn.Covers (turn : OptTurn) (position : ℕ ×ₗ ℕ) : Prop :=
  turn.before.cursor ≤ position ∧ position < turn.call.parser.cursor

/-- **A chain of turns covers what lies between its ends.** -/
theorem exists_turn_covers {parser : OptParser} {calls : List OptCall} {position : ℕ ×ₗ ℕ}
    (hfirst : parser.cursor ≤ position) (hlast : position < (finalParser parser calls).cursor) :
    ∃ turn ∈ turns parser calls, turn.Covers position := by
  induction calls generalizing parser with
  | nil => exact absurd hlast (not_lt_of_ge hfirst)
  | cons call calls ih =>
      by_cases hnext : position < call.parser.cursor
      · exact ⟨⟨parser, call⟩, List.mem_cons_self, hfirst, hnext⟩
      · obtain ⟨turn, hturn, hcovers⟩ := ih (le_of_not_gt hnext) hlast
        exact ⟨turn, List.mem_cons_of_mem _ hturn, hcovers⟩

/-- What a letter at position `k` of a cluster makes of the cursor, and of `optarg`. -/
inductive LetterMoves (line : CommandLine) (text : CString) (arg : CPointer) (optind k : ℕ)
    (parser' : OptParser) : Prop
  /-- The next letter of the cluster is next. -/
  | stays (hmore : k + 1 < text.length) (hoptind : parser'.optind = optind)
      (hpos : parser'.shortOptPos = k + 1)
  /-- The letter was the last one. -/
  | ends (hlast : text.length ≤ k + 1) (hoptind : parser'.optind = optind + 1)
      (hpos : parser'.shortOptPos = 0)
  /-- The letters behind it are its argument. -/
  | attached (hoptarg : parser'.optarg = some (arg.add (k + 1)))
      (hoptind : parser'.optind = optind + 1) (hpos : parser'.shortOptPos = 0)
  /-- The next element is its argument. -/
  | separate (hlast : text.length ≤ k + 1) (hoptarg : parser'.optarg = line.element (optind + 1))
      (hoptind : parser'.optind = optind + 1 + 1) (hpos : parser'.shortOptPos = 0)

/-- The letter is reported, by itself or through `optopt`. -/
def OptCall.ReportsLetter (call : OptCall) (c : CChar) : Prop :=
  call.report = some c.toInt ∨ call.report = some question.toInt ∧ call.parser.optopt = c.toInt

theorem OptCall.ReportsLetter.report_ne_none {call : OptCall} {c : CChar}
    (hreports : call.ReportsLetter c) : call.report ≠ none := by
  rcases hreports with hreport | ⟨hreport, -⟩ <;> rw [hreport] <;> exact Option.some_ne_none _

/-- What a call that finds this state comes to. -/
inductive OptOutcome (line : CommandLine) (memory : Memory) (parser : OptParser) :
    OptCall → Prop
  /-- Nothing is left, or the element does not begin with a `-`. -/
  | stays {call : OptCall}
      (htext : (elementText memory (line.element parser.optind))[0]? ≠ some dash)
      (hcursor : call.parser.cursor = parser.cursor) : OptOutcome line memory parser call
  /-- `--` ends the options. -/
  | marker {call : OptCall} (htext : elementText memory (line.element parser.optind) = [dash, dash])
      (hreport : call.report = none) (hoptind : call.parser.optind = parser.optind + 1)
      (hpos : call.parser.shortOptPos = 0) : OptOutcome line memory parser call
  /-- The end of the function, which is not to be reached. -/
  | loneDash {call : OptCall} (htext : elementText memory (line.element parser.optind) = [dash])
      (hreport : call.report = none) (hoptind : call.parser.optind = parser.optind + 1)
      (hpos : call.parser.shortOptPos = 0) : OptOutcome line memory parser call
  | long {call : OptCall} {arg : CPointer} {name : CString}
      (harg : line.element parser.optind = some arg)
      (htext : memory.read arg = dash :: dash :: name) (hname : name ≠ [])
      (hcall : call = parseLongOption line { parser with optarg := none } memory arg) :
      OptOutcome line memory parser call
  | letter {call : OptCall} {arg : CPointer} {c : CChar}
      (harg : line.element parser.optind = some arg) (hcluster : IsCluster (memory.read arg))
      (hletter : (memory.read arg)[(parser.enter arg).shortOptPos]? = some c)
      (hreports : call.ReportsLetter c)
      (hmoves : LetterMoves line (memory.read arg) arg parser.optind
        (parser.enter arg).shortOptPos call.parser) : OptOutcome line memory parser call

/-- One letter of a cluster. -/
theorem parseShortOption_letter (line : CommandLine) {parser : OptParser} {memory : Memory}
    {arg : CPointer} {c : CChar}
    (hletter : (memory.read arg)[(parser.enter arg).shortOptPos]? = some c) :
    ∃ call, parseShortOption line parser memory arg = .returned call ∧ call.ReportsLetter c ∧
      LetterMoves line (memory.read arg) arg parser.optind (parser.enter arg).shortOptPos
        call.parser := by
  have hoptind := parser.enter_optind arg
  simp only [parseShortOption, hletter, OptParser.reportLetter, OptParser.refuseLetter]
  rcases (parser.enter arg).pass_cases (memory.read arg) with ⟨hlast, hpass⟩ | ⟨hmore, hpass⟩
  · rw [hpass]
    have hends : ∀ (parser' : OptParser), parser'.optind = (parser.enter arg).optind + 1 →
        parser'.shortOptPos = 0 → LetterMoves line (memory.read arg) arg parser.optind
          (parser.enter arg).shortOptPos parser' :=
      fun _ hnext hpos => .ends hlast (by rw [hnext, hoptind]) hpos
    split_ifs with htype hrequired hattached hnext hoptional hattached
    · exact absurd hattached.1 (by simp [OptParser.leave])
    · exact ⟨_, rfl, .inl rfl, .separate hlast (by simp [OptParser.leave])
        (by simp [OptParser.leave]) rfl⟩
    · exact ⟨_, rfl, .inr ⟨rfl, rfl⟩, hends _ rfl rfl⟩
    · exact absurd hattached.1 (by simp [OptParser.leave])
    · exact ⟨_, rfl, .inl rfl, hends _ rfl rfl⟩
    · exact ⟨_, rfl, .inl rfl, hends _ rfl rfl⟩
    · exact ⟨_, rfl, .inr ⟨rfl, rfl⟩, hends _ rfl rfl⟩
  · rw [hpass]
    have hattached : 0 < (parser.enter arg).shortOptPos + 1 ∧
        (memory.read arg)[(parser.enter arg).shortOptPos + 1]? ≠ none :=
      ⟨Nat.succ_pos _, by simpa using hmore⟩
    simp only [if_pos hattached]
    split_ifs with htype hrequired hoptional
    · exact ⟨_, rfl, .inl rfl, .attached rfl (by simp [OptParser.leave]) rfl⟩
    · exact ⟨_, rfl, .inl rfl, .attached rfl (by simp [OptParser.leave]) rfl⟩
    · exact ⟨_, rfl, .inl rfl, .stays hmore hoptind rfl⟩
    · exact ⟨_, rfl, .inr ⟨rfl, rfl⟩, .stays hmore hoptind rfl⟩

/-- The name of a long option, with its value. -/
theorem exists_name_of_long {text : CString} (hfirst : text[0]? = some dash)
    (hsecond : text[1]? = some dash) (hthird : text[2]? ≠ none) :
    ∃ name, text = dash :: dash :: name ∧ name ≠ [] := by
  match text with
  | [] | [_] | [_, _] => simp at hthird
  | c :: d :: e :: name =>
      obtain rfl : c = dash := by simpa using hfirst
      obtain rfl : d = dash := by simpa using hsecond
      exact ⟨e :: name, rfl, List.cons_ne_nil _ _⟩

/-- Only a lone `-` gets past all tests. -/
theorem eq_dash_of_short {text : CString} (hfirst : text[0]? = some dash)
    (hdashes : text ≠ [dash, dash]) (hlong : ¬ (text[1]? = some dash ∧ text[2]? ≠ none))
    (hcluster : ¬ (text[1]? ≠ none ∧ text[1]? ≠ some dash)) : text = [dash] := by
  match text with
  | [] => simp at hfirst
  | [c] =>
      obtain rfl : c = dash := by simpa using hfirst
      rfl
  | [c, d] =>
      obtain rfl : c = dash := by simpa using hfirst
      obtain rfl : d = dash := by simpa using hcluster
      exact absurd rfl hdashes
  | c :: d :: e :: name =>
      obtain rfl : d = dash := by simpa using hcluster
      exact absurd ⟨rfl, by simp⟩ hlong

/-- `optarg` does not matter to where a cluster is read on. -/
theorem OptParser.enter_shortOptPos (parser : OptParser) (optarg : Option CPointer)
    (arg : CPointer) : ({ parser with optarg := optarg }.enter arg).shortOptPos =
      (parser.enter arg).shortOptPos := by
  by_cases hcurrent : parser.currentArg = some arg <;> simp [enter, hcurrent]

/-- **A call from a valid state** comes to one of the outcomes. -/
theorem OptParser.Valid.outcome {line : CommandLine} {memory : Memory} {parser : OptParser}
    (hvalid : parser.Valid line memory) {call : OptCall}
    (hcall : optParseStep line parser memory = .returned call) :
    OptOutcome line memory parser call := by
  have hargc := hvalid.le_argc
  have hone := hvalid.one_le
  simp only [optParseStep] at hcall
  rw [if_neg (by omega)] at hcall
  split_ifs at hcall with hend
  · obtain rfl := OptStep.returned.inj hcall
    have hnone : line.element parser.optind = none := by
      simp [CommandLine.element, List.getElem?_eq_none hend]
    exact .stays (by simp [hnone, elementText]) rfl
  · cases harg : line.element parser.optind with
    | none =>
        simp only [harg, OptParser.stop, OptStep.returned.injEq] at hcall
        subst hcall
        exact .stays (by simp [harg, elementText]) rfl
    | some arg =>
        have hstart : ¬ IsCluster (memory.read arg) → parser.shortOptPos = 0 :=
          fun hno => (hvalid.at_start harg hno).2
        have htext : elementText memory (line.element parser.optind) = memory.read arg := by
          rw [harg]
          rfl
        simp only [harg, OptParser.stop] at hcall
        split_ifs at hcall with hdash hdashes hlong hcluster
        · obtain rfl := OptStep.returned.inj hcall
          exact .stays (by rwa [htext]) rfl
        · obtain rfl := OptStep.returned.inj hcall
          exact .marker (htext.trans hdashes) rfl rfl
            (hstart fun hcluster => hcluster.2.2 (by simp [hdashes]))
        · obtain rfl := OptStep.returned.inj hcall
          obtain ⟨name, hname, hne⟩ := exists_name_of_long (not_not.mp hdash) hlong.1 hlong.2
          exact .long harg hname hne rfl
        · have hfound : IsCluster (memory.read arg) := ⟨not_not.mp hdash, hcluster⟩
          have hsame : { parser with optarg := none }.Valid line memory :=
            ⟨hone, hargc, hvalid.position⟩
          have hbound := (hsame.enter_letter harg hfound).2.2
          obtain ⟨call', hcall', hreports, hmoves⟩ :=
            parseShortOption_letter line (List.getElem?_eq_getElem hbound)
          obtain rfl := OptStep.returned.inj (hcall'.symm.trans hcall)
          rw [OptParser.enter_shortOptPos] at hmoves
          refine .letter harg hfound ?_ hreports hmoves
          rw [← OptParser.enter_shortOptPos parser none arg]
          exact List.getElem?_eq_getElem hbound
        · obtain rfl := OptStep.returned.inj hcall
          refine .loneDash (htext.trans ?_) rfl rfl (hstart fun hfound => hcluster hfound.2)
          exact eq_dash_of_short (not_not.mp hdash) hdashes hlong hcluster

/-! ## The turns of a run -/

section Run

variable {line : CommandLine} {memory : Memory} {parser : OptParser} {calls : List OptCall}

/-- Every turn of a loop finds a valid state and comes to an outcome. -/
theorem OptRun.forall_turn (hrun : OptRun line parser memory calls)
    (hvalid : parser.Valid line memory) :
    ∀ turn ∈ turns parser calls, turn.before.Valid line memory ∧
      OptOutcome line memory turn.before turn.call := by
  induction hrun with
  | @last parser memory hret =>
      intro turn hturn
      obtain rfl := List.mem_singleton.mp hturn
      obtain ⟨call, hcall, -⟩ := hvalid.call
      rw [optParseLong_of_returned hcall]
      exact ⟨hvalid, hvalid.outcome hcall⟩
  | @report parser memory calls hret hrest ih =>
      obtain ⟨call, hcall, hmemory, hvalid', -⟩ := hvalid.call
      rw [optParseLong_of_returned hcall] at ih ⊢
      rw [hmemory] at ih
      rw [turns_cons, List.forall_mem_cons]
      exact ⟨⟨hvalid, hvalid.outcome hcall⟩, ih hvalid'⟩

/-- A long option moves on by one element, or by two with the second as its argument. -/
theorem parseLongOption_optind (line : CommandLine) (parser : OptParser) (memory : Memory)
    (arg : CPointer) :
    (parseLongOption line parser memory arg).parser.optind = parser.optind + 1 ∨
      (parseLongOption line parser memory arg).parser.optind = parser.optind + 1 + 1 ∧
        (parseLongOption line parser memory arg).parser.optarg =
          line.element (parser.optind + 1) := by
  simp only [parseLongOption]
  cases findLongOption line.longopts _ with
  | none => simp
  | some found =>
      obtain ⟨index, opt⟩ := found
      cases equalsOf memory (arg.add 2) with
      | some equals =>
          by_cases hrequired : opt.hasArg = 1 <;> by_cases hoptional : opt.hasArg = 2 <;>
            simp [hrequired, hoptional]
      | none =>
          by_cases hrequired : opt.hasArg = 1
          · by_cases hnext : parser.optind + 1 < line.argv.length <;> simp [hrequired, hnext]
          · by_cases hoptional : opt.hasArg = 2 <;> simp [hrequired, hoptional]

/-- The call takes the element for the argument of the option before it. -/
def OptTurn.TakesArgument (turn : OptTurn) (line : CommandLine) (j : ℕ) : Prop :=
  turn.before.optind + 1 = j ∧ turn.call.parser.optind = j + 1 ∧ turn.call.report ≠ none ∧
    turn.call.parser.optarg = line.element j

/-- A turn moves on by nothing, inside its element, to the next element, or over an argument. -/
theorem OptOutcome.moves {call : OptCall} (houtcome : OptOutcome line memory parser call)
    (hvalid : parser.Valid line memory) :
    call.parser.optind = parser.optind ∨
      call.parser.optind = parser.optind + 1 ∧ call.parser.shortOptPos = 0 ∨
      OptTurn.TakesArgument ⟨parser, call⟩ line (parser.optind + 1) ∧
        call.parser.shortOptPos = 0 := by
  cases houtcome with
  | stays _ hcursor =>
      left
      exact congrArg Prod.fst (toLex.injective hcursor)
  | marker _ _ hoptind hpos => exact .inr (.inl ⟨hoptind, hpos⟩)
  | loneDash _ _ hoptind hpos => exact .inr (.inl ⟨hoptind, hpos⟩)
  | @long arg name harg htext hname hcall =>
      subst hcall
      have hno : ¬ IsCluster (memory.read arg) := fun hcluster => hcluster.2.2 (by simp [htext])
      have hover := parseLongOption_movesOver line { parser with optarg := none } memory arg
      have hpos := hover.shortOptPos_eq.trans (hvalid.at_start harg hno).2
      rcases parseLongOption_optind line { parser with optarg := none } memory arg with
        hone | ⟨htwo, hoptarg⟩
      · exact .inr (.inl ⟨hone, hpos⟩)
      · exact .inr (.inr ⟨⟨rfl, htwo, hover.reports, hoptarg⟩, hpos⟩)
  | letter harg hcluster hletter hreports hmoves =>
      have hreport : call.report ≠ none := hreports.report_ne_none
      cases hmoves with
      | stays hmore hoptind hpos => exact .inl hoptind
      | ends hlast hoptind hpos => exact .inr (.inl ⟨hoptind, hpos⟩)
      | attached hoptarg hoptind hpos => exact .inr (.inl ⟨hoptind, hpos⟩)
      | separate hlast hoptarg hoptind hpos =>
          exact .inr (.inr ⟨⟨rfl, hoptind, hreport, hoptarg⟩, hpos⟩)

theorem OptOutcome.optind_le {call : OptCall} (houtcome : OptOutcome line memory parser call)
    (hvalid : parser.Valid line memory) : parser.optind ≤ call.parser.optind := by
  rcases houtcome.moves hvalid with hsame | ⟨hone, -⟩ | ⟨htakes, -⟩
  · omega
  · omega
  · have htwo : call.parser.optind = parser.optind + 1 + 1 := htakes.2.1
    omega

/-- A turn covers positions of the element that it finds, or of an argument. -/
theorem OptTurn.Covers.cases {turn : OptTurn} {j k : ℕ} (hcovers : turn.Covers (toLex (j, k)))
    (houtcome : OptOutcome line memory turn.before turn.call)
    (hvalid : turn.before.Valid line memory) :
    turn.before.optind = j ∨ turn.TakesArgument line j := by
  obtain ⟨hbefore, hafter⟩ := hcovers
  rw [OptParser.cursor, Prod.Lex.toLex_le_toLex] at hbefore
  rw [OptParser.cursor, Prod.Lex.toLex_lt_toLex] at hafter
  dsimp only at hbefore hafter
  rcases houtcome.moves hvalid with hsame | ⟨hone, hpos⟩ | ⟨htakes, hpos⟩
  · left
    omega
  · left
    omega
  · have htwo : turn.call.parser.optind = turn.before.optind + 1 + 1 := htakes.2.1
    by_cases hfirst : turn.before.optind = j
    · exact .inl hfirst
    · obtain rfl : turn.before.optind + 1 = j := by omega
      exact .inr htakes

/-- Where no turn goes back, no element is found behind the first one. -/
theorem le_before_of_mem_turns
    (hforward : ∀ turn ∈ turns parser calls, turn.before.optind ≤ turn.call.parser.optind) :
    ∀ turn ∈ turns parser calls, parser.optind ≤ turn.before.optind := by
  induction calls generalizing parser with
  | nil => exact fun _ hturn => absurd hturn List.not_mem_nil
  | cons call calls ih =>
      rw [turns_cons, List.forall_mem_cons] at hforward ⊢
      exact ⟨le_rfl, fun turn hturn => hforward.1.trans (ih hforward.2 turn hturn)⟩

theorem pairwise_turns
    (hforward : ∀ turn ∈ turns parser calls, turn.before.optind ≤ turn.call.parser.optind) :
    (turns parser calls).Pairwise fun turn later =>
      turn.call.parser.optind ≤ later.before.optind := by
  induction calls generalizing parser with
  | nil => exact .nil
  | cons call calls ih =>
      rw [turns_cons, List.forall_mem_cons] at hforward
      exact .cons (le_before_of_mem_turns hforward.2) (ih hforward.2)

theorem OptRun.forward (hrun : OptRun line parser memory calls)
    (hvalid : parser.Valid line memory) :
    ∀ turn ∈ turns parser calls, turn.before.optind ≤ turn.call.parser.optind := by
  intro turn hturn
  have hone := hrun.forall_turn hvalid turn hturn
  exact hone.2.optind_le hone.1

/-- **The turns of a run find the elements in order**: of two turns, one is over before the
other. -/
theorem OptRun.turns_ordered (hrun : OptRun line parser memory calls)
    (hvalid : parser.Valid line memory) :
    ∀ turn ∈ turns parser calls, ∀ other ∈ turns parser calls,
      turn = other ∨ turn.call.parser.optind ≤ other.before.optind ∨
        other.call.parser.optind ≤ turn.before.optind := by
  have hforward := hrun.forward hvalid
  have hone : ∀ turn other : OptTurn, turn.call.parser.optind ≤ other.before.optind →
      turn = other ∨ turn.call.parser.optind ≤ other.before.optind ∨
        other.call.parser.optind ≤ turn.before.optind := fun _ _ hafter => .inr (.inl hafter)
  intro turn hturn other hother
  apply List.Pairwise.forall_of_forall_of_flip (fun _ _ => .inl rfl) _ _ hturn hother
  · exact (pairwise_turns hforward).imp (hone _ _)
  · apply (pairwise_turns hforward).imp
    rintro turn other hafter
    exact .inr (.inr hafter)

/-- The run is not over before one of its turns. -/
theorem le_finalParser
    (hforward : ∀ turn ∈ turns parser calls, turn.before.optind ≤ turn.call.parser.optind) :
    parser.optind ≤ (finalParser parser calls).optind ∧
      ∀ turn ∈ turns parser calls,
        turn.call.parser.optind ≤ (finalParser parser calls).optind := by
  induction calls generalizing parser with
  | nil => exact ⟨le_rfl, fun _ hturn => absurd hturn List.not_mem_nil⟩
  | cons call calls ih =>
      rw [turns_cons, List.forall_mem_cons] at hforward ⊢
      obtain ⟨hfirst, hrest⟩ := ih hforward.2
      exact ⟨hforward.1.trans hfirst, hfirst, hrest⟩

/-- An element that a turn finds is not taken for an argument. -/
theorem OptRun.not_takesArgument (hrun : OptRun line parser memory calls)
    (hvalid : parser.Valid line memory) {turn : OptTurn} (hturn : turn ∈ turns parser calls) :
    ¬ ∃ other ∈ turns parser calls, other.TakesArgument line turn.before.optind := by
  rintro ⟨other, hother, hbefore, hafter, -, -⟩
  have hforward := hrun.forward hvalid turn hturn
  rcases hrun.turns_ordered hvalid turn hturn other hother with rfl | hlt | hlt <;> omega

/-- A call that reports nothing is the last one. -/
theorem OptRun.finalParser_eq (hrun : OptRun line parser memory calls) :
    ∀ turn ∈ turns parser calls, turn.call.report = none →
      finalParser parser calls = turn.call.parser := by
  induction hrun with
  | @last parser memory hret =>
      intro turn hturn _
      obtain rfl := List.mem_singleton.mp hturn
      rfl
  | @report parser memory calls hret hrest ih =>
      rw [turns_cons, List.forall_mem_cons]
      exact ⟨fun hnone => absurd hnone (OptCall.report_ne_none hret), ih⟩

/-- Every position that the run has behind it was covered by one of its turns. -/
theorem OptRun.exists_turn (hrun : OptRun line parser memory calls)
    (hvalid : parser.Valid line memory) {j k : ℕ} (hfirst : parser.cursor ≤ toLex (j, k))
    (hlast : j < (finalParser parser calls).optind) :
    ∃ turn ∈ turns parser calls, turn.Covers (toLex (j, k)) ∧
      turn.before.Valid line memory ∧ OptOutcome line memory turn.before turn.call ∧
      (turn.before.optind = j ∨ turn.TakesArgument line j) := by
  obtain ⟨turn, hturn, hcovers⟩ := exists_turn_covers hfirst
    (Prod.Lex.toLex_lt_toLex.mpr (.inl hlast) : toLex (j, k) < (finalParser parser calls).cursor)
  obtain ⟨hvalid', houtcome⟩ := hrun.forall_turn hvalid turn hturn
  exact ⟨turn, hturn, hcovers, hvalid', houtcome, hcovers.cases houtcome hvalid'⟩

end Run

/-- An option, short or long: a `-` with something behind it, but not `--`. -/
def IsOptionText (text : CString) : Prop :=
  text[0]? = some dash ∧ text[1]? ≠ none ∧ text ≠ [dash, dash]

/-- Every element that the loop has behind it was read as an option, or taken for the argument
of one, or is the `--` that ended the loop. -/
def KeepsOperands (line : CommandLine) (memory : Memory) (calls : List OptCall) : Prop :=
  ∀ j, 1 ≤ j → j < (finalParser .init calls).optind →
    (∃ turn ∈ turns .init calls, turn.before.optind = j ∧
        IsOptionText (elementText memory (line.element j))) ∨
      (∃ turn ∈ turns .init calls, turn.TakesArgument line j) ∨
      (elementText memory (line.element j) = [dash, dash] ∧
        j + 1 = (finalParser .init calls).optind)

/-- Without any elements the loop makes one call, which does nothing. -/
theorem OptRun.finalParser_of_no_argv {line : CommandLine} {memory : Memory}
    {calls : List OptCall} (hrun : OptRun line .init memory calls) (hargc : line.argv.length < 1) :
    (finalParser .init calls).optind = 1 ∧
      ∀ turn ∈ turns .init calls, turn.before = .init := by
  have hcall : optParseLong line .init memory = ⟨none, .init, memory, none, none, none⟩ := by
    apply optParseLong_of_returned
    rw [optParseStep, if_pos hargc]
    rfl
  cases hrun with
  | last hret =>
      rw [hcall]
      exact ⟨rfl, fun turn hturn => by rw [List.mem_singleton.mp hturn]⟩
  | report hret hrest => exact absurd (by rw [hcall]; rfl) hret

theorem element_of_no_argv {line : CommandLine} (hargc : line.argv.length < 1) (i : ℕ) :
    line.element i = none := by
  simp [CommandLine.element, List.getElem?_eq_none (show line.argv.length ≤ i by omega)]

/-- A lone `-` is found by a turn that ends the loop and steps over it. -/
theorem OptOutcome.of_lone_dash {line : CommandLine} {memory : Memory} {parser : OptParser}
    {call : OptCall} (houtcome : OptOutcome line memory parser call)
    (hdash : elementText memory (line.element parser.optind) = [dash]) :
    call.report = none ∧ call.parser.optind = parser.optind + 1 := by
  have hread : ∀ arg, line.element parser.optind = some arg → memory.read arg = [dash] := by
    intro arg harg
    rwa [harg] at hdash
  cases houtcome with
  | stays htext hcursor => exact absurd (by rw [hdash]; rfl) htext
  | marker htext => exact absurd (hdash.symm.trans htext) (by decide)
  | loneDash htext hreport hoptind => exact ⟨hreport, hoptind⟩
  | long harg htext => exact absurd ((hread _ harg).symm.trans htext) (by simp)
  | letter harg hcluster => exact absurd (by rw [hread _ harg]; rfl) hcluster.2.1

/-- A turn that moves over the element it finds has found an option or `--`, or a lone `-`. -/
theorem OptOutcome.text_of_covers {line : CommandLine} {memory : Memory} {turn : OptTurn}
    {position : ℕ ×ₗ ℕ} (houtcome : OptOutcome line memory turn.before turn.call)
    (hcovers : turn.Covers position)
    (hdash : elementText memory (line.element turn.before.optind) ≠ [dash]) :
    IsOptionText (elementText memory (line.element turn.before.optind)) ∨
      elementText memory (line.element turn.before.optind) = [dash, dash] ∧
        turn.call.report = none ∧ turn.call.parser.optind = turn.before.optind + 1 := by
  obtain ⟨before, call⟩ := turn
  cases houtcome with
  | stays htext hcursor =>
      have hsame : call.parser.cursor = before.cursor := hcursor
      exact absurd (hcovers.1.trans_lt hcovers.2) (by simp [hsame])
  | marker htext hreport hoptind => exact .inr ⟨htext, hreport, hoptind⟩
  | loneDash htext => exact absurd htext hdash
  | long harg htext hname =>
      left
      rw [harg]
      simp [elementText, htext, IsOptionText, hname]
  | letter harg hcluster =>
      left
      rw [harg]
      refine ⟨hcluster.1, hcluster.2.1, fun hdashes => hcluster.2.2 ?_⟩
      have htext : _ = [dash, dash] := hdashes
      simp only [elementText, Option.elim_some] at htext
      simp [htext]

/-- Where operands are kept, no call finds a lone `-`. -/
theorem KeepsOperands.no_lone_dash {line : CommandLine} {memory : Memory} {calls : List OptCall}
    (hkeeps : KeepsOperands line memory calls) (hrun : OptRun line .init memory calls)
    (hargc : 1 ≤ line.argv.length) :
    ∀ turn ∈ turns .init calls,
      elementText memory (line.element turn.before.optind) ≠ [dash] := by
  intro turn hturn hdash
  have hvalid := OptParser.valid_init memory hargc
  obtain ⟨hvalid', houtcome⟩ := hrun.forall_turn hvalid turn hturn
  obtain ⟨hnone, hover⟩ := houtcome.of_lone_dash hdash
  have hfinal := hrun.finalParser_eq turn hturn hnone
  rcases hkeeps turn.before.optind hvalid'.one_le (by rw [hfinal]; omega) with
    ⟨-, -, -, hoption⟩ | htakes | ⟨hmarker, -⟩
  · rw [hdash] at hoption
    exact hoption.2.1 rfl
  · exact hrun.not_takesArgument hvalid hturn htakes
  · exact absurd (hdash.symm.trans hmarker) (by decide)

theorem OptParser.init_cursor_le {j : ℕ} (hone : 1 ≤ j) (k : ℕ) :
    OptParser.init.cursor ≤ toLex (j, k) := by
  have hstart : OptParser.init.optind = 1 ∧ OptParser.init.shortOptPos = 0 := ⟨rfl, rfl⟩
  rw [OptParser.cursor, Prod.Lex.toLex_le_toLex]
  dsimp only
  omega

/-- **When operands are kept.** They are, exactly when no call of the loop finds a lone `-`:
the end of the function, which is not to be reached, steps over it. -/
theorem keepsOperands_iff {line : CommandLine} {memory : Memory} {calls : List OptCall}
    (hrun : OptRun line .init memory calls) :
    KeepsOperands line memory calls ↔
      ∀ turn ∈ turns .init calls,
        elementText memory (line.element turn.before.optind) ≠ [dash] := by
  by_cases hargc : line.argv.length < 1
  · obtain ⟨hfinal, hturns⟩ := hrun.finalParser_of_no_argv hargc
    have hkeeps : KeepsOperands line memory calls := fun j hone hlt => by omega
    refine ⟨fun _ turn hturn => ?_, fun _ => hkeeps⟩
    rw [hturns turn hturn, element_of_no_argv hargc]
    exact (List.cons_ne_nil _ _).symm
  · rw [Nat.not_lt] at hargc
    refine ⟨fun hkeeps => hkeeps.no_lone_dash hrun hargc, ?_⟩
    intro hnoDash j hone hlt
    obtain ⟨turn, hturn, hcovers, -, houtcome, rfl | htakes⟩ :=
      hrun.exists_turn (OptParser.valid_init memory hargc) (OptParser.init_cursor_le hone 0) hlt
    · rcases houtcome.text_of_covers hcovers (hnoDash turn hturn) with
        hoption | ⟨hmarker, hreport, hover⟩
      · exact .inl ⟨turn, hturn, rfl, hoption⟩
      · exact .inr (.inr ⟨hmarker, by rw [hrun.finalParser_eq turn hturn hreport, hover]⟩)
    · exact .inr (.inl ⟨turn, hturn, htakes⟩)

/-- The command line `prog` with one element behind it. -/
def oneElement (optstring : CString) (longopts : List LongOption) : CommandLine where
  argv := [some ⟨0, 0⟩, some ⟨1, 0⟩]
  optstring := some optstring
  longopts := some longopts

/-- The strings of such a command line. -/
def oneElementMemory (text : CString) : Memory :=
  fun object => if object = 1 then bytesOf text else bytesOf (cstr "prog")

theorem oneElement_run (optstring : CString) (longopts : List LongOption) (text : CString) :
    ∃ calls, OptRun (oneElement optstring longopts) .init (oneElementMemory text) calls ∧
      ∃ turn ∈ turns .init calls, turn.before = .init := by
  have hvalid : OptParser.Valid (oneElement optstring longopts) (oneElementMemory text) .init :=
    OptParser.valid_init _ (Nat.succ_pos 1)
  obtain ⟨calls, hrun, -⟩ := hvalid.run
  refine ⟨calls, hrun, ?_⟩
  cases hrun with
  | last hret => exact ⟨_, List.mem_cons_self, rfl⟩
  | report hret hrest => exact ⟨_, List.mem_cons_self, rfl⟩

/-- The command line `prog -a file`, where `a` is a flag and `file` an operand. -/
def flagAndFile : CommandLine where
  argv := [some ⟨0, 0⟩, some ⟨1, 0⟩, some ⟨2, 0⟩]
  optstring := some (cstr "a")
  longopts := some []

/-- The strings of that command line. -/
def flagAndFileMemory : Memory := fun object =>
  if object = 1 then bytesOf (cstr "-a")
  else if object = 2 then bytesOf (cstr "file")
  else bytesOf (cstr "prog")

/-- The operand of `prog -a file` is kept. -/
theorem keepsOperands_iff_operand :
    ∃ calls, OptRun flagAndFile .init flagAndFileMemory calls ∧
      KeepsOperands flagAndFile flagAndFileMemory calls := by
  have hvalid : OptParser.Valid flagAndFile flagAndFileMemory .init :=
    OptParser.valid_init _ (Nat.succ_pos 2)
  obtain ⟨calls, hrun, -⟩ := hvalid.run
  refine ⟨calls, hrun, (keepsOperands_iff hrun).mpr fun turn _ => ?_⟩
  generalize turn.before.optind = j
  have hargv : ∀ j < 3, elementText flagAndFileMemory (flagAndFile.element j) ≠ [dash] := by
    decide +kernel
  by_cases hj : j < 3
  · exact hargv j hj
  · have hnone : flagAndFile.element j = none := by
      rw [CommandLine.element, List.getElem?_eq_none (Nat.not_lt.mp hj)]
      rfl
    rw [hnone]
    exact (List.cons_ne_nil _ _).symm

/-- `prog -` steps over the operand `-`. -/
theorem not_keepsOperands_lone_dash :
    ∃ calls, OptRun (oneElement [] []) .init (oneElementMemory (cstr "-")) calls ∧
      ¬ KeepsOperands (oneElement [] []) (oneElementMemory (cstr "-")) calls := by
  obtain ⟨calls, hrun, turn, hturn, hbefore⟩ := oneElement_run [] [] (cstr "-")
  refine ⟨calls, hrun, fun hkeeps => ?_⟩
  apply hkeeps.no_lone_dash hrun (Nat.succ_pos 1) turn hturn
  rw [hbefore]
  decide +kernel

/-! ## Texts of options -/

/-- The turn accounts for the letter at position `k`: it reads the letter and reports it, or
the letter belongs to the `optarg` of what it reports. -/
def OptTurn.AccountsForLetter (turn : OptTurn) (text : CString) (arg : CPointer) (k : ℕ) : Prop :=
  ((turn.before.enter arg).shortOptPos = k ∧
      ∃ c, text[k]? = some c ∧ turn.call.ReportsLetter c) ∨
    turn.call.report ≠ none ∧ ∃ start ≤ k, turn.call.parser.optarg = some (arg.add start)

/-- The call hands on the value of a long option, or refuses the option. -/
def OptCall.AccountsForValue (call : OptCall) (memory : Memory) (value : CString) : Prop :=
  call.report = some question.toInt ∨
    call.report ≠ none ∧ call.parser.optarg.map memory.read = some value

/-- Every element that the loop has behind it was taken for an argument, or was found by a
turn, and then each letter of a cluster and the value of a long option is accounted for. -/
def AccountsForAll (line : CommandLine) (memory : Memory) (calls : List OptCall) : Prop :=
  ∀ j, 1 ≤ j → j < (finalParser .init calls).optind →
    (∃ turn ∈ turns .init calls, turn.TakesArgument line j) ∨
      (∃ turn ∈ turns .init calls, turn.before.optind = j) ∧
        ∀ arg, line.element j = some arg →
          (IsCluster (memory.read arg) → ∀ k, 1 ≤ k → k < (memory.read arg).length →
            ∃ turn ∈ turns .init calls, turn.before.optind = j ∧
              turn.AccountsForLetter (memory.read arg) arg k) ∧
          ∀ name value, memory.read arg = dash :: dash :: (name ++ CChar.equals :: value) →
            CChar.equals ∉ name → ∀ turn ∈ turns .init calls, turn.before.optind = j →
              turn.call.AccountsForValue memory value

/-- The element at the cursor gives a value to a long option that takes none. Only one that
is reported as `'?'` anyway makes up for it. -/
def DropsValue (line : CommandLine) (memory : Memory) (parser : OptParser) : Prop :=
  ∃ arg name value index opt, line.element parser.optind = some arg ∧
    memory.read arg = dash :: dash :: (name ++ CChar.equals :: value) ∧
    CChar.equals ∉ name ∧ findLongOption line.longopts name = some (index, opt) ∧
    opt.hasArg ≠ 1 ∧ opt.hasArg ≠ 2 ∧ ¬ (opt.flag = none ∧ opt.val = question.toInt)

section Accounts

variable {line : CommandLine} {memory : Memory} {parser : OptParser} {arg : CPointer}

/-- `--name=value` loses its value exactly when the option is known and takes none. -/
theorem parseLongOption_accounts_iff {name value : CString}
    (htext : memory.read arg = dash :: dash :: (name ++ CChar.equals :: value))
    (hequals : CChar.equals ∉ name) :
    (parseLongOption line { parser with optarg := none } memory arg).AccountsForValue memory
        value ↔
      ¬ ∃ index opt, findLongOption line.longopts name = some (index, opt) ∧ opt.hasArg ≠ 1 ∧
        opt.hasArg ≠ 2 ∧ ¬ (opt.flag = none ∧ opt.val = question.toInt) := by
  have hat := equalsOf_attached htext hequals
  have hread := read_equals htext
  have hname : (writeEquals memory (some ((arg.add 2).add name.length)) 0).read (arg.add 2) =
      name := Memory.read_write_zero (read_optionName htext)
  simp only [parseLongOption, OptCall.AccountsForValue]
  rw [hat, hname]
  cases hfind : findLongOption line.longopts name with
  | none => simp
  | some found =>
      obtain ⟨index, opt⟩ := found
      by_cases hrequired : opt.hasArg = 1
      · simp [hrequired, hread]
      · by_cases hoptional : opt.hasArg = 2
        · simp [hoptional, hread]
        · have hzero : (0 : ℤ) ≠ question.toInt := by decide
          cases hflag : opt.flag with
          | none => simp [hrequired, hoptional, hflag]
          | some address => simp [hrequired, hoptional, hflag, hzero]

/-- In a cluster the cursor is never behind the letter that is read next. -/
theorem OptParser.Valid.enter_le (hvalid : parser.Valid line memory)
    (harg : line.element parser.optind = some arg) {k : ℕ} (hone : 1 ≤ k)
    (hle : parser.shortOptPos ≤ k) : (parser.enter arg).shortOptPos ≤ k := by
  rcases hvalid.position with ⟨hnone, -⟩ | ⟨arg', harg', hcurrent, -⟩
  · simpa [OptParser.enter, hnone] using hone
  · obtain rfl := Option.some.inj (harg.symm.trans harg')
    simpa [OptParser.enter, hcurrent] using hle

/-- A turn accounts for the letters of a cluster that it covers. -/
theorem OptTurn.Covers.accountsForLetter {turn : OptTurn} {k : ℕ}
    (hcovers : turn.Covers (toLex (turn.before.optind, k)))
    (houtcome : OptOutcome line memory turn.before turn.call)
    (hvalid : turn.before.Valid line memory)
    (harg : line.element turn.before.optind = some arg)
    (hcluster : IsCluster (memory.read arg)) (hone : 1 ≤ k)
    (hbound : k < (memory.read arg).length) :
    turn.AccountsForLetter (memory.read arg) arg k := by
  have htext : elementText memory (line.element turn.before.optind) = memory.read arg := by
    rw [harg]
    rfl
  obtain ⟨before, call⟩ := turn
  obtain ⟨hbefore, hafter⟩ := hcovers
  rw [OptParser.cursor, Prod.Lex.toLex_le_toLex] at hbefore
  rw [OptParser.cursor, Prod.Lex.toLex_lt_toLex] at hafter
  dsimp only at *
  cases houtcome with
  | stays hstays => exact absurd (by rw [htext]; exact hcluster.1) hstays
  | marker hmarker =>
      rw [htext] at hmarker
      exact absurd (by simp [hmarker]) hcluster.2.2
  | loneDash hdash =>
      rw [htext] at hdash
      exact absurd (by simp [hdash]) hcluster.2.1
  | long harg' hlong =>
      obtain rfl := Option.some.inj (harg.symm.trans harg')
      exact absurd (by simp [hlong]) hcluster.2.2
  | @letter arg' c harg' _ hletter hreports hmoves =>
      obtain rfl := Option.some.inj (harg.symm.trans harg')
      have hreport : call.report ≠ none := hreports.report_ne_none
      have hle := hvalid.enter_le harg hone (by omega)
      have hread : (before.enter arg).shortOptPos = k →
          OptTurn.AccountsForLetter ⟨before, call⟩ (memory.read arg) arg k :=
        fun hk => .inl ⟨hk, c, hk ▸ hletter, hreports⟩
      cases hmoves with
      | stays hmore hoptind hpos => exact hread (by omega)
      | ends hlast hoptind hpos => exact hread (by omega)
      | attached hoptarg hoptind hpos =>
          rcases hle.eq_or_lt with hk | hk
          · exact hread hk
          · exact .inr ⟨hreport, _, hk, hoptarg⟩
      | separate hlast hoptarg hoptind hpos => exact hread (by omega)

/-- A long option is read as one. -/
theorem OptOutcome.of_long {call : OptCall} (houtcome : OptOutcome line memory parser call)
    (harg : line.element parser.optind = some arg) {name : CString}
    (htext : memory.read arg = dash :: dash :: name) (hname : name ≠ []) :
    call = parseLongOption line { parser with optarg := none } memory arg := by
  have helement : elementText memory (line.element parser.optind) = dash :: dash :: name := by
    rw [harg]
    exact htext
  cases houtcome with
  | stays hstays => exact absurd (by rw [helement]; rfl) hstays
  | marker hmarker => exact absurd (helement.symm.trans hmarker) (by simpa using hname)
  | loneDash hdash => exact absurd (helement.symm.trans hdash) (by simp)
  | letter harg' hcluster =>
      obtain rfl := Option.some.inj (harg.symm.trans harg')
      exact absurd (by simp [htext]) hcluster.2.2
  | long harg' _ _ hcall =>
      obtain rfl := Option.some.inj (harg.symm.trans harg')
      exact hcall

end Accounts

/-- Where all texts are accounted for, no call drops a value. -/
theorem AccountsForAll.no_drop {line : CommandLine} {memory : Memory} {calls : List OptCall}
    (haccounts : AccountsForAll line memory calls) (hrun : OptRun line .init memory calls)
    (hargc : 1 ≤ line.argv.length) :
    ∀ turn ∈ turns .init calls, ¬ DropsValue line memory turn.before := by
  rintro turn hturn ⟨arg, name, value, index, opt, harg, htext, hequals, hfind, hdrops⟩
  have hvalid := OptParser.valid_init memory hargc
  obtain ⟨hvalid', houtcome⟩ := hrun.forall_turn hvalid turn hturn
  have hcall := houtcome.of_long harg htext (by simp)
  have hover : turn.before.optind < turn.call.parser.optind := by
    rw [hcall]
    exact (parseLongOption_movesOver line { turn.before with optarg := none } memory arg).optind_lt
  have hfinal := (le_finalParser (hrun.forward hvalid)).2 turn hturn
  rcases haccounts turn.before.optind hvalid'.one_le (by omega) with htakes | ⟨-, hfound⟩
  · exact hrun.not_takesArgument hvalid hturn htakes
  · have hvalue := (hfound arg harg).2 name value htext hequals turn hturn rfl
    rw [hcall] at hvalue
    exact (parseLongOption_accounts_iff htext hequals).mp hvalue ⟨index, opt, hfind, hdrops⟩

/-- **When no option text is dropped.** All texts are accounted for, exactly when no call of
the loop finds a value for a known long option that takes none. -/
theorem accountsForAll_iff {line : CommandLine} {memory : Memory} {calls : List OptCall}
    (hrun : OptRun line .init memory calls) :
    AccountsForAll line memory calls ↔
      ∀ turn ∈ turns .init calls, ¬ DropsValue line memory turn.before := by
  by_cases hargc : line.argv.length < 1
  · obtain ⟨hfinal, -⟩ := hrun.finalParser_of_no_argv hargc
    have haccounts : AccountsForAll line memory calls := fun j hone hlt => by omega
    refine ⟨fun _ turn hturn => ?_, fun _ => haccounts⟩
    rintro ⟨arg, -, -, -, -, harg, -⟩
    rw [element_of_no_argv hargc] at harg
    cases harg
  · rw [Nat.not_lt] at hargc
    have hvalid := OptParser.valid_init memory hargc
    refine ⟨fun haccounts => haccounts.no_drop hrun hargc, ?_⟩
    intro hkept j hone hlt
    obtain ⟨turn, hturn, -, -, -, rfl | htakes⟩ :=
      hrun.exists_turn hvalid (OptParser.init_cursor_le hone 0) hlt
    · refine .inr ⟨⟨turn, hturn, rfl⟩, fun arg harg => ⟨?_, ?_⟩⟩
      · intro hcluster k hk hbound
        obtain ⟨other, hother, hcovers, hvalid', houtcome, hfound | htakes⟩ :=
          hrun.exists_turn hvalid (OptParser.init_cursor_le hone k) hlt
        · rw [← hfound] at hcovers harg
          exact ⟨other, hother, hfound,
            hcovers.accountsForLetter houtcome hvalid' harg hcluster hk hbound⟩
        · exact absurd ⟨other, hother, htakes⟩ (hrun.not_takesArgument hvalid hturn)
      · intro name value htext hequals other hother hfound
        rw [← hfound] at harg
        obtain ⟨-, houtcome⟩ := hrun.forall_turn hvalid other hother
        rw [houtcome.of_long harg htext (by simp)]
        apply (parseLongOption_accounts_iff htext hequals).mpr
        rintro ⟨index, opt, hfind, hdrops⟩
        exact hkept other hother ⟨arg, name, value, index, opt, harg, htext, hequals, hfind, hdrops⟩
    · exact .inl ⟨turn, hturn, htakes⟩

/-- The command line `prog -ab` with the flags `a` and `b`. -/
theorem accountsForAll_iff_flags :
    ∃ calls, OptRun (oneElement (cstr "ab") []) .init (oneElementMemory (cstr "-ab")) calls ∧
      (AccountsForAll (oneElement (cstr "ab") []) (oneElementMemory (cstr "-ab")) calls ↔
        ∀ turn ∈ turns .init calls, ¬ DropsValue (oneElement (cstr "ab") [])
          (oneElementMemory (cstr "-ab")) turn.before) := by
  obtain ⟨calls, hrun, -⟩ := oneElement_run (cstr "ab") [] (cstr "-ab")
  exact ⟨calls, hrun, accountsForAll_iff hrun⟩

/-- `prog --all=no` loses the `no` where `all` takes no argument. -/
theorem not_accountsForAll_value :
    ∃ calls, OptRun (oneElement [] [⟨cstr "all", 0, none, 97⟩]) .init
        (oneElementMemory (cstr "--all=no")) calls ∧
      ¬ AccountsForAll (oneElement [] [⟨cstr "all", 0, none, 97⟩])
        (oneElementMemory (cstr "--all=no")) calls := by
  obtain ⟨calls, hrun, turn, hturn, hbefore⟩ :=
    oneElement_run [] [⟨cstr "all", 0, none, 97⟩] (cstr "--all=no")
  refine ⟨calls, hrun, fun haccounts => ?_⟩
  apply haccounts.no_drop hrun (Nat.succ_pos 1) turn hturn
  rw [hbefore]
  exact ⟨⟨1, 0⟩, cstr "all", cstr "no", 0, ⟨cstr "all", 0, none, 97⟩, rfl, by decide +kernel,
    by decide +kernel, rfl, by decide, by decide, by decide⟩

end BasC
