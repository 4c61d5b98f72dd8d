/-
# Options written out and read back

What a well-formed command line is, without a parser: option occurrences written into
elements of `argv`, flags in clusters, arguments behind their option or in the next
element, and operands at the end. The loop over `opt_parse_long` reports the occurrences,
in their order, and stops at the operands.
-/

import BasC.Cli.OptCursor

namespace BasC

open CChar

/-- `no_argument`, `required_argument` and `optional_argument`. -/
inductive HasArg
  | no
  | required
  | optional
  deriving DecidableEq

/-- The `int` that stands for it, and the number of colons behind a letter. -/
def HasArg.code : HasArg → ℕ
  | .no => 0
  | .required => 1
  | .optional => 2

/-- The first `c` of the option string has the colons behind it. -/
def Declares (optstring : CString) (c : CChar) (kind : HasArg) : Prop :=
  ∃ before after, optstring = before ++ c :: (List.replicate kind.code colon ++ after) ∧
    c ∉ before ∧ (kind ≠ .optional → after[0]? ≠ some colon)

/-- A short option of the option string. -/
structure ShortOption (optstring : CString) (kind : HasArg) (c : CChar) : Prop where
  ascii : c.toNat < 128
  not_special : c ≠ colon ∧ c ≠ dash ∧ c ≠ question
  declared : Declares optstring c kind

/-- A table of long options: the names are unique, not empty and without `=`, and the
options are reported by values of their own. -/
structure LongTable (longopts : List LongOption) : Prop where
  unique : (longopts.map LongOption.name).Nodup
  named : ∀ opt ∈ longopts, opt.name ≠ [] ∧ CChar.equals ∉ opt.name
  reported : ∀ opt ∈ longopts, opt.flag = none ∧ opt.val ≠ -1 ∧ opt.val ≠ question.toInt

/-- An option that takes part in a command line, with its argument. -/
inductive Occurrence
  | short (letter : CChar) (value : Option CString)
  | long (index : ℕ) (opt : LongOption) (value : Option CString)

/-- The value of the option, `optarg` and what is stored in `*longindex`. -/
structure Shown where
  ret : ℤ
  optarg : Option CString
  longindex : Option ℕ

/-- What a call has to show for an occurrence. -/
def Occurrence.shown : Occurrence → Shown
  | .short letter value => ⟨letter.toInt, value, none⟩
  | .long index opt value => ⟨opt.val, value, some index⟩

/-- What a call shows. -/
def OptCall.shown (call : OptCall) : Shown :=
  ⟨call.ret, call.parser.optarg.map call.memory.read, call.longindex⟩

/-- The flags of a cluster. -/
def flagsOf (letters : List CChar) : List Occurrence := letters.map fun c => .short c none

/-- Occurrences of options, and elements of `argv` that they can be written as. A cluster
has flags and at its end a letter that may have an argument. -/
inductive Renders (optstring : CString) (longopts : List LongOption) :
    List Occurrence → List CString → Prop
  | nil : Renders optstring longopts [] []
  | bare {letters : List CChar} {c : CChar} {kind : HasArg} {occs : List Occurrence}
      {elements : List CString} :
      (∀ d ∈ letters, ShortOption optstring .no d) → ShortOption optstring kind c →
      kind ≠ .required → Renders optstring longopts occs elements →
      Renders optstring longopts (flagsOf letters ++ .short c none :: occs)
        ((dash :: (letters ++ [c])) :: elements)
  | attached {letters : List CChar} {c : CChar} {kind : HasArg} {value : CString}
      {occs : List Occurrence} {elements : List CString} :
      (∀ d ∈ letters, ShortOption optstring .no d) → ShortOption optstring kind c →
      kind ≠ .no → value ≠ [] → Renders optstring longopts occs elements →
      Renders optstring longopts (flagsOf letters ++ .short c (some value) :: occs)
        ((dash :: (letters ++ c :: value)) :: elements)
  | separate {letters : List CChar} {c : CChar} {value : CString} {occs : List Occurrence}
      {elements : List CString} :
      (∀ d ∈ letters, ShortOption optstring .no d) → ShortOption optstring .required c →
      Renders optstring longopts occs elements →
      Renders optstring longopts (flagsOf letters ++ .short c (some value) :: occs)
        ((dash :: (letters ++ [c])) :: value :: elements)
  | longBare {index : ℕ} {opt : LongOption} {kind : HasArg} {occs : List Occurrence}
      {elements : List CString} :
      longopts[index]? = some opt → opt.hasArg = kind.code → kind ≠ .required →
      Renders optstring longopts occs elements →
      Renders optstring longopts (.long index opt none :: occs)
        ((dash :: dash :: opt.name) :: elements)
  | longAttached {index : ℕ} {opt : LongOption} {kind : HasArg} {value : CString}
      {occs : List Occurrence} {elements : List CString} :
      longopts[index]? = some opt → opt.hasArg = kind.code → kind ≠ .no →
      Renders optstring longopts occs elements →
      Renders optstring longopts (.long index opt (some value) :: occs)
        ((dash :: dash :: (opt.name ++ CChar.equals :: value)) :: elements)
  | longSeparate {index : ℕ} {opt : LongOption} {value : CString} {occs : List Occurrence}
      {elements : List CString} :
      longopts[index]? = some opt → opt.hasArg = HasArg.required.code →
      Renders optstring longopts occs elements →
      Renders optstring longopts (.long index opt (some value) :: occs)
        ((dash :: dash :: opt.name) :: value :: elements)

/-- The elements behind the options, and the operands in them. -/
inductive Operands : List CString → List CString → Prop
  | empty : Operands [] []
  | plain {operand : CString} {operands : List CString} :
      operand[0]? ≠ some dash → Operands (operand :: operands) (operand :: operands)
  | introduced {operands : List CString} : Operands ([dash, dash] :: operands) operands

theorem findLetter_append {before : CString} {c : CChar} (hnot : c ∉ before) (after : CString) :
    findLetter (before ++ c :: after) c = findLetter (c :: after) c := by
  induction before with
  | nil => rfl
  | cons d before ih =>
      rw [List.mem_cons, not_or] at hnot
      rw [List.cons_append, findLetter, if_neg (Ne.symm hnot.1), ih hnot.2]

theorem Declares.findShortOption_eq {optstring : CString} {c : CChar} {kind : HasArg}
    (hdeclares : Declares optstring c kind) :
    findShortOption (some optstring) c = kind.code := by
  obtain ⟨before, after, rfl, hnot, hcolon⟩ := hdeclares
  rw [findShortOption, findLetter_append hnot, findLetter, if_pos rfl]
  cases kind with
  | no => rw [if_neg (by simpa [HasArg.code] using hcolon)]; rfl
  | required =>
      rw [if_pos (by simp [HasArg.code]), if_neg (by simpa [HasArg.code] using hcolon)]
      rfl
  | optional => simp [HasArg.code, List.replicate]

theorem findLongOptionFrom_eq {longopts : List LongOption} {opt : LongOption} {index : ℕ}
    (hunique : (longopts.map LongOption.name).Nodup) (hopt : longopts[index]? = some opt) (i : ℕ) :
    findLongOptionFrom opt.name i longopts = some (i + index, opt) := by
  induction longopts generalizing index i with
  | nil => simp at hopt
  | cons other longopts ih =>
      rw [List.map_cons, List.nodup_cons] at hunique
      cases index with
      | zero =>
          obtain rfl : other = opt := by simpa using hopt
          rw [findLongOptionFrom, if_pos rfl, Nat.add_zero]
      | succ index =>
          rw [List.getElem?_cons_succ] at hopt
          have hother : other.name ≠ opt.name := fun heq =>
            hunique.1 (heq ▸ List.mem_map_of_mem (List.mem_of_getElem? hopt))
          rw [findLongOptionFrom, if_neg hother, ih hunique.2 hopt]
          congr 2
          omega

/-- The cursor is at a place of an element, with this text before it. -/
structure OptParser.Reads (line : CommandLine) (memory : Memory) (parser : OptParser)
    (arg : CPointer) (before after : CString) : Prop where
  in_argv : parser.optind < line.argv.length
  element : line.element parser.optind = some arg
  text : memory.read arg = before ++ after
  cluster : IsCluster (memory.read arg)
  behind : (parser.enter arg).shortOptPos = before.length

section Letter

variable {line : CommandLine} {memory : Memory} {parser : OptParser} {arg : CPointer}
  {before after : CString} {c : CChar} {kind : HasArg}

/-- The parser in the cluster, before it looks at the letter. -/
def OptParser.entered (parser : OptParser) (arg : CPointer) : OptParser :=
  { parser with optarg := none }.enter arg

@[simp] theorem OptParser.entered_optind (parser : OptParser) (arg : CPointer) :
    (parser.entered arg).optind = parser.optind :=
  enter_optind _ arg

@[simp] theorem OptParser.entered_currentArg (parser : OptParser) (arg : CPointer) :
    (parser.entered arg).currentArg = some arg :=
  enter_currentArg _ arg

@[simp] theorem OptParser.entered_optarg (parser : OptParser) (arg : CPointer) :
    (parser.entered arg).optarg = none := by
  unfold entered enter
  split <;> rfl

theorem OptParser.enter_of_current (hcurrent : parser.currentArg = some arg) :
    parser.enter arg = parser := by
  rw [enter, if_neg (not_not.mpr hcurrent)]

theorem OptParser.Reads.entered_behind (hreads : parser.Reads line memory arg before after) :
    (parser.entered arg).shortOptPos = before.length := by
  rw [← hreads.behind]
  unfold entered enter
  dsimp only
  split <;> rfl

theorem OptParser.Reads.step (hreads : parser.Reads line memory arg before after) :
    optParseStep line parser memory =
      parseShortOption line { parser with optarg := none } memory arg := by
  obtain ⟨hargc, harg, -, ⟨hdash, hsome, hnot⟩, -⟩ := hreads
  have hdashes : memory.read arg ≠ [dash, dash] := fun heq => hnot (by rw [heq]; rfl)
  simp only [optParseStep, harg]
  rw [if_neg (by omega), if_neg (by omega), if_neg (by simp [hdash]), if_neg hdashes,
    if_neg (fun hlong => hnot hlong.1), if_pos ⟨hsome, hnot⟩]

theorem OptParser.Reads.letter (hreads : parser.Reads line memory arg before (c :: after)) :
    (memory.read arg)[(parser.entered arg).shortOptPos]? = some c ∧
      (memory.read arg)[(parser.entered arg).shortOptPos + 1]? = after[0]? := by
  rw [hreads.entered_behind, hreads.text]
  refine ⟨by simp, ?_⟩
  rw [List.getElem?_append_right (by omega), Nat.add_sub_cancel_left, List.getElem?_cons_succ]

theorem OptParser.Reads.pass_last (hreads : parser.Reads line memory arg before [c]) :
    (parser.entered arg).pass (memory.read arg) = (parser.entered arg).leave := by
  simp only [pass]
  rw [hreads.letter.2, if_pos List.getElem?_nil]
  rfl

theorem OptParser.Reads.pass_more (hreads : parser.Reads line memory arg before (c :: after))
    (hafter : after ≠ []) :
    (parser.entered arg).pass (memory.read arg) = { parser.entered arg with
      shortOptPos := (parser.entered arg).shortOptPos + 1 } := by
  simp only [pass]
  rw [hreads.letter.2, if_neg (by simpa using hafter)]

/-- A flag with letters behind it. -/
theorem step_flag (hreads : parser.Reads line memory arg before (c :: after))
    (hkind : findShortOption line.optstring c = HasArg.no.code) (hafter : after ≠ []) :
    optParseStep line parser memory = { parser.entered arg with
      shortOptPos := (parser.entered arg).shortOptPos + 1 }.reportLetter memory c := by
  rw [hreads.step]
  simp only [parseShortOption]
  rw [← OptParser.entered, hreads.letter.1, hreads.pass_more hafter]
  simp [hkind, HasArg.code]

/-- A letter without an argument at the end of its cluster. -/
theorem step_bare (hreads : parser.Reads line memory arg before [c])
    (hkind : findShortOption line.optstring c = kind.code) (hoption : kind ≠ .required) :
    optParseStep line parser memory = (parser.entered arg).leave.reportLetter memory c := by
  rw [hreads.step]
  simp only [parseShortOption]
  rw [← OptParser.entered, hreads.letter.1, hreads.pass_last]
  cases kind <;> simp_all [HasArg.code, OptParser.leave]

/-- A letter with the rest of the element as its argument. -/
theorem step_attached (hreads : parser.Reads line memory arg before (c :: after))
    (hkind : findShortOption line.optstring c = kind.code) (hoption : kind ≠ .no)
    (hafter : after ≠ []) :
    optParseStep line parser memory = { (parser.entered arg).leave with
      optarg := some (arg.add (before.length + 1)) }.reportLetter memory c := by
  have hnext := hreads.letter.2
  rw [hreads.step]
  simp only [parseShortOption]
  rw [← OptParser.entered, hreads.letter.1, hreads.pass_more hafter]
  rw [hreads.entered_behind] at hnext ⊢
  cases kind <;> simp_all [HasArg.code, OptParser.leave]

/-- A letter with the next element as its argument. -/
theorem step_separate (hreads : parser.Reads line memory arg before [c])
    (hkind : findShortOption line.optstring c = HasArg.required.code)
    (hargc : parser.optind + 1 < line.argv.length) :
    optParseStep line parser memory = { (parser.entered arg).leave.leave with
      optarg := line.element (parser.optind + 1) }.reportLetter memory c := by
  rw [hreads.step]
  simp only [parseShortOption]
  rw [← OptParser.entered, hreads.letter.1, hreads.pass_last]
  simp [hkind, HasArg.code, OptParser.leave, hargc]

end Letter

/-! ## One long option -/

section Long

variable {line : CommandLine} {memory : Memory} {parser : OptParser} {arg : CPointer}
  {longopts : List LongOption} {index : ℕ} {opt : LongOption} {kind : HasArg}

/-- A call that has found a long option. -/
def longCall (memory : Memory) (index : ℕ) (opt : LongOption) (parser : OptParser) : OptCall where
  report := some opt.val
  parser := parser
  memory := memory
  longindex := some index
  flagStore := none
  message := none

theorem optParseStep_long {name : CString} (hargc : parser.optind < line.argv.length)
    (harg : line.element parser.optind = some arg)
    (htext : memory.read arg = dash :: dash :: name) (hname : name ≠ []) :
    optParseStep line parser memory =
      .returned (parseLongOption line { parser with optarg := none } memory arg) := by
  have hthird : (dash :: dash :: name)[2]? ≠ none := by simpa using hname
  have hdashes : dash :: dash :: name ≠ [dash, dash] := by simpa using hname
  simp only [optParseStep, harg, htext]
  rw [if_neg (by omega), if_neg (by omega), if_neg (by simp), if_neg hdashes,
    if_pos ⟨by simp, hthird⟩]

theorem read_optionName {name : CString} (htext : memory.read arg = dash :: dash :: name) :
    memory.read (arg.add 2) = name := by
  have hsplit : memory.read arg = [dash, dash] ++ name := htext
  exact Memory.read_add hsplit

/-- `--name`: there is no `=`. -/
theorem equalsOf_bare (htext : memory.read arg = dash :: dash :: opt.name)
    (hequals : CChar.equals ∉ opt.name) : equalsOf memory (arg.add 2) = none := by
  rw [equalsOf, read_optionName htext, (strchr_eq_none_iff _ _).mpr hequals, Option.map_none]

/-- `--name=value`: the `=` is behind the name. -/
theorem equalsOf_attached {name value : CString}
    (htext : memory.read arg = dash :: dash :: (name ++ CChar.equals :: value))
    (hequals : CChar.equals ∉ name) :
    equalsOf memory (arg.add 2) = some ((arg.add 2).add name.length) := by
  rw [equalsOf, read_optionName htext, strchr_append_cons hequals, Option.map_some]

theorem LongTable.find (htable : LongTable longopts) (hopt : longopts[index]? = some opt) :
    findLongOption (some longopts) opt.name = some (index, opt) := by
  rw [findLongOption, Option.getD_some, findLongOptionFrom_eq htable.unique hopt, Nat.zero_add]

variable (htable : LongTable longopts) (hlongopts : line.longopts = some longopts)
  (hopt : longopts[index]? = some opt)

include htable hlongopts hopt

/-- `--name` without an argument. -/
theorem parseLongOption_bare (hkind : opt.hasArg = kind.code) (hoption : kind ≠ .required)
    (htext : memory.read arg = dash :: dash :: opt.name) :
    parseLongOption line parser memory arg =
      longCall memory index opt { parser with optind := parser.optind + 1 } := by
  have hmem := List.mem_of_getElem? hopt
  simp only [parseLongOption]
  rw [equalsOf_bare htext (htable.named opt hmem).2]
  simp only [writeEquals]
  rw [read_optionName htext, hlongopts, htable.find hopt]
  cases kind <;>
    simp_all [HasArg.code, longCall, (htable.reported opt hmem).1]

/-- `--name=value`. -/
theorem parseLongOption_attached {value : CString} (hkind : opt.hasArg = kind.code)
    (hoption : kind ≠ .no)
    (htext : memory.read arg = dash :: dash :: (opt.name ++ CChar.equals :: value)) :
    parseLongOption line parser memory arg =
      longCall memory index opt { parser with
        optind := parser.optind + 1,
        optarg := some (((arg.add 2).add opt.name.length).add 1) } := by
  have hmem := List.mem_of_getElem? hopt
  have hequals := equalsOf_attached htext (htable.named opt hmem).2
  have hrestore := writeEquals_restore memory (arg.add 2)
  have hname : (writeEquals memory (some ((arg.add 2).add opt.name.length)) 0).read (arg.add 2) =
      opt.name := Memory.read_write_zero (read_optionName htext)
  rw [hequals] at hrestore
  simp only [parseLongOption]
  rw [hequals, hrestore, hname, hlongopts, htable.find hopt]
  cases kind <;> simp_all [HasArg.code, longCall, (htable.reported opt hmem).1]

/-- `--name` with the next element as its argument. -/
theorem parseLongOption_separate (hkind : opt.hasArg = HasArg.required.code)
    (htext : memory.read arg = dash :: dash :: opt.name)
    (hargc : parser.optind + 1 < line.argv.length) :
    parseLongOption line parser memory arg =
      longCall memory index opt { parser with
        optind := parser.optind + 1 + 1, optarg := line.element (parser.optind + 1) } := by
  have hmem := List.mem_of_getElem? hopt
  simp only [parseLongOption]
  rw [equalsOf_bare htext (htable.named opt hmem).2]
  simp only [writeEquals]
  rw [read_optionName htext, hlongopts, htable.find hopt]
  simp [hkind, HasArg.code, longCall, hargc, (htable.reported opt hmem).1]

end Long

/-- From here on the loop reports the occurrences, and stops at the operands. -/
def Yields (line : CommandLine) (memory : Memory) (parser : OptParser) (occs : List Occurrence)
    (operands : List CString) : Prop :=
  ∃ calls last, OptRun line parser memory (calls ++ [last]) ∧
    calls.map OptCall.shown = occs.map Occurrence.shown ∧ last.ret = -1 ∧
    last.parser.optind + operands.length = line.argv.length

namespace Yields

variable {line : CommandLine} {memory : Memory} {parser parser' : OptParser}
  {occs : List Occurrence} {operands : List CString}

theorem stop (hstep : optParseStep line parser memory = parser'.stop memory)
    (hoptind : parser'.optind + operands.length = line.argv.length) :
    Yields line memory parser [] operands := by
  have hcall := optParseLong_of_returned hstep
  exact ⟨[], _, OptRun.last (by rw [hcall]; rfl), rfl, by rw [hcall]; rfl,
    by rw [hcall]; exact hoptind⟩

theorem call {call : OptCall} {occ : Occurrence}
    (hstep : optParseStep line parser memory = .returned call) (hmemory : call.memory = memory)
    (hret : call.ret ≠ -1) (hshown : call.shown = occ.shown)
    (hrest : Yields line memory call.parser occs operands) :
    Yields line memory parser (occ :: occs) operands := by
  obtain ⟨calls, last, hrun, hcalls, hlast, hoptind⟩ := hrest
  have hcall := optParseLong_of_returned hstep
  refine ⟨call :: calls, last, ?_, by rw [List.map_cons, List.map_cons, hshown, hcalls], hlast,
    hoptind⟩
  exact hcall ▸ OptRun.report (by rwa [hcall]) (by rwa [hcall, hmemory])

theorem letter {c : CChar} {value : Option CString} (hascii : c.toNat < 128)
    (hstep : optParseStep line parser memory = parser'.reportLetter memory c)
    (hvalue : parser'.optarg.map memory.read = value)
    (hrest : Yields line memory parser' occs operands) :
    Yields line memory parser (.short c value :: occs) operands := by
  have hret : c.toInt ≠ -1 := by
    rw [toInt, if_pos hascii]
    omega
  exact call hstep rfl hret (by simp [OptCall.shown, OptCall.ret, Occurrence.shown, hvalue]) hrest

theorem long {index : ℕ} {opt : LongOption} {value : Option CString} (hval : opt.val ≠ -1)
    (hstep : optParseStep line parser memory = .returned (longCall memory index opt parser'))
    (hvalue : parser'.optarg.map memory.read = value)
    (hrest : Yields line memory parser' occs operands) :
    Yields line memory parser (.long index opt value :: occs) operands :=
  call hstep rfl hval (by simp [OptCall.shown, OptCall.ret, longCall, Occurrence.shown, hvalue])
    hrest

/-- The flags of a cluster are reported one after the other. -/
theorem flags {optstring : CString} {letters : List CChar} {arg : CPointer}
    {before tail : CString} (hoptstring : line.optstring = some optstring)
    (hflags : ∀ d ∈ letters, ShortOption optstring .no d) (htail : tail ≠ [])
    (hreads : parser.Reads line memory arg before (letters ++ tail))
    (hrest : ∀ next : OptParser, next.optind = parser.optind →
      next.Reads line memory arg (before ++ letters) tail → Yields line memory next occs operands) :
    Yields line memory parser (flagsOf letters ++ occs) operands := by
  induction letters generalizing parser before with
  | nil => exact hrest parser rfl (by simpa using hreads)
  | cons d letters ih =>
      have hd := hflags d (by simp)
      have hkind : findShortOption line.optstring d = HasArg.no.code := by
        rw [hoptstring, hd.declared.findShortOption_eq]
      have hstep := step_flag hreads hkind (by simp [htail])
      refine letter hd.ascii hstep (by simp) ?_
      have hnext : ({ parser.entered arg with
          shortOptPos := (parser.entered arg).shortOptPos + 1 } : OptParser).Reads line memory arg
          (before ++ [d]) (letters ++ tail) := by
        refine ⟨by simpa using hreads.in_argv, by simpa using hreads.element, by simp [hreads.text],
          hreads.cluster, ?_⟩
        have hcurrent := parser.entered_currentArg arg
        rw [OptParser.enter_of_current (by exact hcurrent)]
        simp [hreads.entered_behind]
      refine ih (fun e he => hflags e (List.mem_cons_of_mem d he)) hnext
        fun next hsame hreads' => ?_
      exact hrest next (hsame.trans (parser.entered_optind arg)) (by simpa using hreads')

end Yields

section Run

variable {argv : List CPointer} {optstring : CString} {longopts : List LongOption}
  {memory : Memory} {occs : List Occurrence} {elements rest operands : List CString}

/-- The arguments of the calls, for elements that are not `NULL`. -/
def commandLine (argv : List CPointer) (optstring : CString) (longopts : List LongOption) :
    CommandLine :=
  ⟨argv.map some, some optstring, some longopts⟩

/-- The texts of the elements from one on. -/
def textsFrom (argv : List CPointer) (memory : Memory) (n : ℕ) : List CString :=
  (argv.drop n).map memory.read

theorem textsFrom_cons (optstring : CString) (longopts : List LongOption) {n : ℕ}
    {text : CString} {texts : List CString} (htexts : textsFrom argv memory n = text :: texts) :
    ∃ arg, (commandLine argv optstring longopts).element n = some arg ∧
      n < (commandLine argv optstring longopts).argv.length ∧ memory.read arg = text ∧
      textsFrom argv memory (n + 1) = texts := by
  obtain ⟨arg, argv', hdrop, htext, htexts'⟩ := List.map_eq_cons_iff.mp htexts
  have hlt : n < argv.length := by
    by_contra hle
    rw [List.drop_eq_nil_of_le (Nat.le_of_not_lt hle)] at hdrop
    cases hdrop
  rw [List.drop_eq_getElem_cons hlt, List.cons.injEq] at hdrop
  refine ⟨arg, ?_, by simpa [commandLine] using hlt, htext, by rw [textsFrom, hdrop.2, htexts']⟩
  simp [commandLine, CommandLine.element, List.getElem?_eq_getElem hlt, hdrop.1]

/-- A cluster that starts an element. -/
theorem reads_start {parser : OptParser} {arg : CPointer} {text : CString}
    (hcurrent : parser.currentArg = none)
    (harg : (commandLine argv optstring longopts).element parser.optind = some arg)
    (hargc : parser.optind < (commandLine argv optstring longopts).argv.length)
    (htext : memory.read arg = dash :: text) (hne : text ≠ []) (hdash : text[0]? ≠ some dash) :
    parser.Reads (commandLine argv optstring longopts) memory arg [dash] text := by
  have hcluster : IsCluster (memory.read arg) := by
    rw [htext]
    exact ⟨rfl, by simpa using hne, by simpa using hdash⟩
  exact ⟨hargc, harg, htext, hcluster, by simp [OptParser.enter, hcurrent]⟩

/-- The first letter of a cluster is no `-`. -/
theorem cluster_head {letters : List CChar} {c : CChar} {kind : HasArg} (after : CString)
    (hflags : ∀ d ∈ letters, ShortOption optstring .no d) (hc : ShortOption optstring kind c) :
    (letters ++ c :: after)[0]? ≠ some dash := by
  cases letters with
  | nil => simpa using hc.not_special.2.1
  | cons d letters => simpa using (hflags d (by simp)).not_special.2.1

/-- The loop stops at the operands. -/
theorem yields_operands (hoperands : Operands rest operands) {parser : OptParser}
    (hone : 1 ≤ parser.optind) (hle : parser.optind ≤ argv.length)
    (htexts : textsFrom argv memory parser.optind = rest) :
    Yields (commandLine argv optstring longopts) memory parser [] operands := by
  have hlength : rest.length = argv.length - parser.optind := by
    rw [← htexts, textsFrom, List.length_map, List.length_drop]
  have hargc : (commandLine argv optstring longopts).argv.length = argv.length :=
    List.length_map _
  cases hoperands with
  | empty =>
      rw [List.length_nil] at hlength
      have hstep : optParseStep (commandLine argv optstring longopts) parser memory =
          { parser with optarg := none }.stop memory := by
        simp only [optParseStep, hargc]
        rw [if_neg (by omega), if_pos (by omega)]
      refine Yields.stop hstep ?_
      rw [hargc, List.length_nil]
      show parser.optind + 0 = argv.length
      omega
  | plain hplain =>
      obtain ⟨arg, harg, hlt, htext, -⟩ := textsFrom_cons optstring longopts htexts
      have hstep : optParseStep (commandLine argv optstring longopts) parser memory =
          { parser with optarg := none }.stop memory := by
        simp only [optParseStep, harg, htext]
        rw [if_neg (by omega), if_neg (by omega), if_pos hplain]
      refine Yields.stop hstep ?_
      rw [hargc, hlength]
      exact Nat.add_sub_of_le hle
  | introduced =>
      obtain ⟨arg, harg, hlt, htext, -⟩ := textsFrom_cons optstring longopts htexts
      have hstep : optParseStep (commandLine argv optstring longopts) parser memory =
          { parser with optarg := none, optind := parser.optind + 1 }.stop memory := by
        simp only [optParseStep, harg, htext]
        rw [if_neg (by omega), if_neg (by omega), if_neg (by simp), if_pos trivial]
      rw [List.length_cons] at hlength
      refine Yields.stop hstep ?_
      rw [hargc]
      show parser.optind + 1 + operands.length = argv.length
      omega

/-- The flags at the start of a cluster are reported, and the cursor is at the letter behind
them. -/
theorem yields_cluster {letters : List CChar} {c : CChar} {kind : HasArg} {after : CString}
    {texts : List CString} {parser : OptParser}
    (hflags : ∀ d ∈ letters, ShortOption optstring .no d) (hc : ShortOption optstring kind c)
    (hcurrent : parser.currentArg = none)
    (htexts : textsFrom argv memory parser.optind = (dash :: (letters ++ c :: after)) :: texts)
    (hrest : ∀ (next : OptParser) (arg : CPointer), next.optind = parser.optind →
      next.Reads (commandLine argv optstring longopts) memory arg (dash :: letters) (c :: after) →
      textsFrom argv memory (parser.optind + 1) = texts →
      Yields (commandLine argv optstring longopts) memory next occs operands) :
    Yields (commandLine argv optstring longopts) memory parser (flagsOf letters ++ occs)
      operands := by
  obtain ⟨arg, harg, hlt, htext, htexts'⟩ := textsFrom_cons optstring longopts htexts
  have hreads := reads_start hcurrent harg hlt htext (by simp) (cluster_head after hflags hc)
  exact Yields.flags rfl hflags (by simp) hreads fun next hnext hreads' =>
    hrest next arg hnext hreads' htexts'

theorem read_attached {parser : OptParser} {line : CommandLine} {arg : CPointer}
    {before value : CString} {c : CChar}
    (hreads : parser.Reads line memory arg before (c :: value)) :
    memory.read (arg.add (before.length + 1)) = value := by
  have hsplit : memory.read arg = (before ++ [c]) ++ value := by simp [hreads.text]
  simpa using Memory.read_add hsplit

theorem read_equals {arg : CPointer} {name value : CString}
    (htext : memory.read arg = dash :: dash :: (name ++ CChar.equals :: value)) :
    memory.read (((arg.add 2).add name.length).add 1) = value := by
  have hsplit : memory.read (arg.add 2) = (name ++ [CChar.equals]) ++ value := by
    simp [read_optionName htext]
  rw [CPointer.add_add]
  simpa using Memory.read_add hsplit

/-- **Rendered options are reported.** -/
theorem yields_of_renders (htable : LongTable longopts)
    (hrenders : Renders optstring longopts occs elements) (hoperands : Operands rest operands)
    {parser : OptParser} (hcurrent : parser.currentArg = none) (hone : 1 ≤ parser.optind)
    (hle : parser.optind ≤ argv.length)
    (htexts : textsFrom argv memory parser.optind = elements ++ rest) :
    Yields (commandLine argv optstring longopts) memory parser occs operands := by
  have hargc : (commandLine argv optstring longopts).argv.length = argv.length :=
    List.length_map _
  induction hrenders generalizing parser with
  | nil => exact yields_operands hoperands hone hle htexts
  | bare hflags hc hkind hrest ih =>
      refine yields_cluster hflags hc hcurrent htexts fun next arg hnext hreads htexts' => ?_
      have hlt := hreads.in_argv
      rw [hargc, hnext] at hlt
      refine Yields.letter hc.ascii (step_bare hreads hc.declared.findShortOption_eq hkind)
        (by simp [OptParser.leave]) (ih rfl ?_ ?_ ?_)
      all_goals simp only [OptParser.leave, OptParser.entered_optind, hnext]
      · omega
      · omega
      · exact htexts'
  | attached hflags hc hkind hvalue hrest ih =>
      refine yields_cluster hflags hc hcurrent htexts fun next arg hnext hreads htexts' => ?_
      have hlt := hreads.in_argv
      rw [hargc, hnext] at hlt
      refine Yields.letter hc.ascii
        (step_attached hreads hc.declared.findShortOption_eq hkind hvalue) ?_ (ih rfl ?_ ?_ ?_)
      · rw [Option.map_some, read_attached hreads]
      all_goals simp only [OptParser.leave, OptParser.entered_optind, hnext]
      · omega
      · omega
      · exact htexts'
  | separate hflags hc hrest ih =>
      refine yields_cluster hflags hc hcurrent htexts fun next arg hnext hreads htexts' => ?_
      obtain ⟨valueArg, hvalueArg, hlt, hvalue, htexts''⟩ :=
        textsFrom_cons optstring longopts htexts'
      rw [← hnext] at hvalueArg hlt
      refine Yields.letter hc.ascii
        (step_separate hreads hc.declared.findShortOption_eq hlt) ?_ (ih rfl ?_ ?_ ?_)
      · rw [hvalueArg, Option.map_some, hvalue]
      all_goals simp only [OptParser.leave, OptParser.entered_optind, hnext]
      · omega
      · omega
      · exact htexts''
  | longBare hopt hkind hoption hrest ih =>
      have hmem := List.mem_of_getElem? hopt
      obtain ⟨arg, harg, hlt, htext, htexts'⟩ := textsFrom_cons optstring longopts htexts
      have hstep := optParseStep_long hlt harg htext (htable.named _ hmem).1
      rw [parseLongOption_bare htable rfl hopt hkind hoption htext] at hstep
      exact Yields.long (htable.reported _ hmem).2.1 hstep rfl
        (ih hcurrent (Nat.succ_pos _) (hargc ▸ hlt) htexts')
  | longAttached hopt hkind hoption hrest ih =>
      have hmem := List.mem_of_getElem? hopt
      obtain ⟨arg, harg, hlt, htext, htexts'⟩ := textsFrom_cons optstring longopts htexts
      have hstep := optParseStep_long hlt harg htext (by simp)
      rw [parseLongOption_attached htable rfl hopt hkind hoption htext] at hstep
      refine Yields.long (htable.reported _ hmem).2.1 hstep ?_
        (ih hcurrent (Nat.succ_pos _) (hargc ▸ hlt) htexts')
      rw [Option.map_some, read_equals htext]
  | longSeparate hopt hkind hrest ih =>
      have hmem := List.mem_of_getElem? hopt
      obtain ⟨arg, harg, hlt, htext, htexts'⟩ := textsFrom_cons optstring longopts htexts
      obtain ⟨valueArg, hvalueArg, hlt', hvalue, htexts''⟩ :=
        textsFrom_cons optstring longopts htexts'
      have hstep := optParseStep_long hlt harg htext (htable.named _ hmem).1
      have hargc' : { parser with optarg := none }.optind + 1 <
          (commandLine argv optstring longopts).argv.length := hlt'
      rw [parseLongOption_separate htable rfl hopt hkind htext hargc'] at hstep
      refine Yields.long (htable.reported _ hmem).2.1 hstep ?_
        (ih hcurrent (Nat.succ_pos _) (hargc ▸ hlt') htexts'')
      rw [hvalueArg, Option.map_some, hvalue]

/-- **A well-formed command line is recovered.** The loop over the options reports exactly
the occurrences that the elements were rendered from, each with its value, argument and
index, and leaves `optind` at the first operand. -/
theorem optParseLong_recovers {program : CString} (htable : LongTable longopts)
    (hrenders : Renders optstring longopts occs elements) (hoperands : Operands rest operands)
    (htexts : argv.map memory.read = program :: (elements ++ rest)) :
    ∃ calls last, OptRun (commandLine argv optstring longopts) .init memory (calls ++ [last]) ∧
      calls.map OptCall.shown = occs.map Occurrence.shown ∧ last.ret = -1 ∧
      last.parser.optind + operands.length = argv.length := by
  cases argv with
  | nil => simp at htexts
  | cons arg argv =>
      have htexts' : textsFrom (arg :: argv) memory OptParser.init.optind = elements ++ rest :=
        (List.cons.inj htexts).2
      obtain ⟨calls, last, hrun, hcalls, hlast, hoptind⟩ :=
        yields_of_renders htable hrenders hoperands rfl (Nat.le_refl 1) (by simp [OptParser.init])
          htexts'
      exact ⟨calls, last, hrun, hcalls, hlast, by simpa [commandLine] using hoptind⟩

/-- `. -!*/ --,=/ .` with the options `!*:` and `--,`, which takes an argument. -/
theorem optParseLong_recovers_example :
    ∃ calls last, OptRun
        (commandLine [⟨0, 0⟩, ⟨1, 0⟩, ⟨2, 0⟩, ⟨0, 0⟩] [bang, star, colon] [⟨[comma], 1, none, 7⟩])
        .init (fun object => [[46], [45, 33, 42, 47], [45, 45, 44, 61, 47]].getD object [])
        (calls ++ [last]) ∧
      calls.map OptCall.shown =
        [⟨33, none, none⟩, ⟨42, some [slash], none⟩, ⟨7, some [slash], some 0⟩] ∧
      last.ret = -1 ∧ last.parser.optind + 1 = 4 := by
  have hflag : ShortOption [bang, star, colon] .no bang :=
    ⟨by decide, by decide, [], [star, colon], rfl, by decide, by decide⟩
  have hflags : ∀ d ∈ [bang], ShortOption [bang, star, colon] .no d := by simpa using hflag
  have hoption : ShortOption [bang, star, colon] .required star :=
    ⟨by decide, by decide, [bang], [], rfl, by decide, by decide⟩
  have hrenders : Renders [bang, star, colon] [⟨[comma], 1, none, 7⟩]
      [.short bang none, .short star (some [slash]), .long 0 ⟨[comma], 1, none, 7⟩ (some [slash])]
      [[dash, bang, star, slash], [dash, dash, comma, CChar.equals, slash]] :=
    .attached hflags hoption (by decide) (by decide)
      (.longAttached rfl (show (1 : ℤ) = HasArg.required.code from rfl) (by decide) .nil)
  have hoperands : Operands [[dot]] [[dot]] := .plain (by decide)
  have htable : LongTable [⟨[comma], 1, none, 7⟩] := ⟨by decide, by decide, by decide⟩
  exact optParseLong_recovers htable hrenders hoperands rfl

end Run

end BasC
