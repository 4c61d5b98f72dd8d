/-
# `argv` after a call

A call of `opt_parse_long` writes a NUL over the `=` of a long option while it looks the name up,
and puts the `=` back on every way out. So `argv` is as it was, in whatever state the parser is,
and an `optarg` points at a text that has not been changed.
-/

import BasC.Cli.OptAccount

namespace BasC

open CChar

/-- What may be the argument of an option: where it is, and its text. -/
inductive IsOptionValue (line : CommandLine) (memory : Memory) : CPointer → CString → Prop
  /-- `--name=value`: the text behind the first `=`. -/
  | long {i : ℕ} {arg : CPointer} {name value : CString} (harg : line.element i = some arg)
      (htext : memory.read arg = dash :: dash :: (name ++ CChar.equals :: value))
      (hname : CChar.equals ∉ name) :
      IsOptionValue line memory (arg.add (2 + name.length + 1)) value
  /-- `-cvalue`: the rest of the element behind the letter. -/
  | attached {i : ℕ} {arg : CPointer} {front value : CString} (harg : line.element i = some arg)
      (htext : memory.read arg = front ++ value) (hfront : front ≠ []) (hvalue : value ≠ []) :
      IsOptionValue line memory (arg.add front.length) value
  /-- Another element. -/
  | separate {i : ℕ} {p : CPointer} (hp : line.element i = some p) :
      IsOptionValue line memory p (memory.read p)

/-- What is at that place in memory is that text. -/
theorem IsOptionValue.read {line : CommandLine} {memory : Memory} {p : CPointer} {value : CString}
    (hp : IsOptionValue line memory p value) : memory.read p = value := by
  cases hp with
  | @long i arg name value harg htext hname =>
      have hbefore : memory.read arg = (dash :: dash :: (name ++ [CChar.equals])) ++ value := by
        rw [htext]
        simp
      have hread := Memory.read_add hbefore
      have hlength : (dash :: dash :: (name ++ [CChar.equals])).length = 2 + name.length + 1 := by
        simp only [List.length_cons, List.length_append, List.length_nil]
        omega
      rwa [hlength] at hread
  | attached harg htext hfront hvalue => exact Memory.read_add htext
  | separate hp => rfl

/-- A call leaves the memory as it was, and reports an option with an argument that is one. -/
structure OptCall.KeepsText (line : CommandLine) (memory : Memory) (call : OptCall) : Prop where
  memory_eq : call.memory = memory
  optarg : call.report ≠ none → ∀ p, call.parser.optarg = some p →
    ∃ value, IsOptionValue line memory p value

section Ways

variable {line : CommandLine} {memory : Memory} {parser : OptParser} {arg : CPointer}

/-- Without an argument there is nothing to show. -/
theorem OptCall.KeepsText.of_none {call : OptCall} (hmemory : call.memory = memory)
    (hoptarg : call.parser.optarg = none) : call.KeepsText line memory :=
  ⟨hmemory, fun _ p hp => by rw [hoptarg] at hp; cases hp⟩

theorem OptCall.KeepsText.of_some {call : OptCall} (hmemory : call.memory = memory) {p : CPointer}
    (hoptarg : call.parser.optarg = some p) {value : CString}
    (hp : IsOptionValue line memory p value) : call.KeepsText line memory := by
  refine ⟨hmemory, fun _ q hq => ?_⟩
  obtain rfl := Option.some.inj (hoptarg.symm.trans hq)
  exact ⟨value, hp⟩

/-- The next element, if it is not `NULL`. -/
theorem OptCall.KeepsText.of_element {call : OptCall} (hmemory : call.memory = memory) {i : ℕ}
    (hoptarg : call.parser.optarg = line.element i) : call.KeepsText line memory := by
  cases helement : line.element i with
  | none => exact .of_none hmemory (hoptarg.trans helement)
  | some p => exact .of_some hmemory (hoptarg.trans helement) (.separate helement)

/-- The text behind the `=` of a long option. -/
theorem isOptionValue_of_equalsOf {equals : CPointer} {i : ℕ} {name : CString}
    (harg : line.element i = some arg) (htext : memory.read arg = dash :: dash :: name)
    (hequals : equalsOf memory (arg.add 2) = some equals) :
    ∃ value, IsOptionValue line memory (equals.add 1) value := by
  have hname : memory.read (arg.add 2) = name := @Memory.read_add memory arg [dash, dash] name htext
  obtain ⟨⟨before, rest⟩, hcut, rfl⟩ := Option.map_eq_some_iff.mp hequals
  rw [hname] at hcut
  obtain ⟨hsplit, hnot, value, rfl⟩ := strchr_eq_some hcut
  rw [hsplit] at htext
  refine ⟨value, ?_⟩
  rw [CPointer.add_add, CPointer.add_add]
  exact .long harg htext hnot

/-- What `optarg` is behind a long option. -/
theorem parseLongOption_optarg (line : CommandLine) (memory : Memory) (arg : CPointer)
    (hoptarg : parser.optarg = none) :
    (parseLongOption line parser memory arg).parser.optarg = none ∨
      (∃ equals, equalsOf memory (arg.add 2) = some equals ∧
        (parseLongOption line parser memory arg).parser.optarg = some (equals.add 1)) ∨
      (parseLongOption line parser memory arg).parser.optarg =
        line.element (parser.optind + 1) := by
  simp only [parseLongOption]
  cases findLongOption line.longopts _ with
  | none => exact .inl hoptarg
  | some found =>
      obtain ⟨index, opt⟩ := found
      cases equalsOf memory (arg.add 2) with
      | some equals =>
          by_cases hrequired : opt.hasArg = 1 <;> by_cases hoptional : opt.hasArg = 2 <;>
            simp [hrequired, hoptional, hoptarg]
      | none =>
          by_cases hrequired : opt.hasArg = 1
          · by_cases hnext : parser.optind + 1 < line.argv.length <;>
              simp [hrequired, hnext, hoptarg]
          · by_cases hoptional : opt.hasArg = 2 <;> simp [hrequired, hoptional, hoptarg]

theorem parseLongOption_keepsText {name : CString} (hoptarg : parser.optarg = none)
    (harg : line.element parser.optind = some arg)
    (htext : memory.read arg = dash :: dash :: name) :
    (parseLongOption line parser memory arg).KeepsText line memory := by
  have hmemory := (parseLongOption_movesOver line parser memory arg).memory_eq
  have hcases := parseLongOption_optarg line memory arg hoptarg
  obtain hnone | ⟨equals, hequals, hsome⟩ | hnext := hcases
  · exact .of_none hmemory hnone
  · obtain ⟨value, hvalue⟩ := isOptionValue_of_equalsOf harg htext hequals
    exact .of_some hmemory hsome hvalue
  · exact .of_element hmemory hnext

/-- The letters behind a letter are its argument. -/
theorem isOptionValue_of_attached {pos i : ℕ} (harg : line.element i = some arg) (hpos : 0 < pos)
    (hletter : (memory.read arg)[pos]? ≠ none) :
    IsOptionValue line memory (arg.add pos) ((memory.read arg).drop pos) := by
  have hlt : pos < (memory.read arg).length := by
    simpa [List.getElem?_eq_none_iff] using hletter
  have hlength : ((memory.read arg).take pos).length = pos := List.length_take_of_le hlt.le
  have hvalue := @IsOptionValue.attached line memory i arg ((memory.read arg).take pos)
    ((memory.read arg).drop pos) harg (List.take_append_drop pos _).symm
    (List.ne_nil_of_length_pos (by omega)) (List.ne_nil_of_length_pos (by simp; omega))
  rwa [hlength] at hvalue

theorem parseShortOption_keepsText {i : ℕ} (hoptarg : parser.optarg = none)
    (harg : line.element i = some arg) {call : OptCall}
    (hcall : parseShortOption line parser memory arg = .returned call) :
    call.KeepsText line memory := by
  have henter : (parser.enter arg).optarg = none := by
    rw [OptParser.enter]
    split_ifs <;> exact hoptarg
  have hpass : ((parser.enter arg).pass (memory.read arg)).optarg = none := by
    simp only [OptParser.pass]
    split_ifs <;> exact henter
  simp only [parseShortOption] at hcall
  cases hletter : (memory.read arg)[(parser.enter arg).shortOptPos]? with
  | none =>
      rw [hletter] at hcall
      cases hcall
  | some c =>
      simp only [hletter, OptParser.reportLetter, OptParser.refuseLetter] at hcall
      split_ifs at hcall with htype hrequired hattached hnext hoptional hattached <;>
        obtain rfl := OptStep.returned.inj hcall
      · exact .of_some rfl rfl (isOptionValue_of_attached harg hattached.1 hattached.2)
      · exact .of_element rfl rfl
      · exact .of_none rfl hpass
      · exact .of_some rfl rfl (isOptionValue_of_attached harg hattached.1 hattached.2)
      · exact .of_none rfl hpass
      · exact .of_none rfl hpass
      · exact .of_none rfl hpass

/-- One pass through the function. -/
theorem optParseStep_keepsText {call : OptCall}
    (hcall : optParseStep line parser memory = .returned call) : call.KeepsText line memory := by
  have hstop {parser' : OptParser} (hstop : parser'.stop memory = .returned call) :
      call.KeepsText line memory := by
    obtain rfl := OptStep.returned.inj hstop
    exact ⟨rfl, fun hreport => absurd rfl hreport⟩
  simp only [optParseStep] at hcall
  split_ifs at hcall with hargc hend
  · exact hstop hcall
  · exact hstop hcall
  · cases harg : line.element parser.optind with
    | none =>
        rw [harg] at hcall
        exact hstop hcall
    | some arg =>
        rw [harg] at hcall
        dsimp only at hcall
        split_ifs at hcall with hdash hdashes hlong hcluster
        · exact hstop hcall
        · exact hstop hcall
        · obtain rfl := OptStep.returned.inj hcall
          obtain ⟨name, hname, -⟩ := exists_name_of_long (not_not.mp hdash) hlong.1 hlong.2
          exact @parseLongOption_keepsText line memory { parser with optarg := none } arg name rfl
            harg hname
        · exact parseShortOption_keepsText rfl harg hcall
        · exact hstop hcall

end Ways

/-- **A call leaves `argv` as it was**, and an argument that it reports is a text of it. -/
theorem optParseLong_keepsText (line : CommandLine) (parser : OptParser) (memory : Memory) :
    (optParseLong line parser memory).memory = memory ∧
      ((optParseLong line parser memory).report ≠ none →
        ∀ p, (optParseLong line parser memory).parser.optarg = some p →
          ∃ value, IsOptionValue line memory p value ∧
            (optParseLong line parser memory).memory.read p = value) := by
  have hkeeps : (optParseLong line parser memory).KeepsText line memory := by
    fun_induction optParseLong line parser memory with
    | case1 parser call hstep => exact optParseStep_keepsText hstep
    | case2 parser parser' hstep ih => exact ih
  refine ⟨hkeeps.memory_eq, fun hreport p hp => ?_⟩
  obtain ⟨value, hvalue⟩ := hkeeps.optarg hreport p hp
  rw [hkeeps.memory_eq]
  exact ⟨value, hvalue, hvalue.read⟩

end BasC
