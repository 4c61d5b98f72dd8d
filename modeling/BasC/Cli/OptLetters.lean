/-
# The letters of an option string

An `optstring` in the syntax of `getopt` declares letters, each with as many `:` behind it as
its argument asks for. `find_short_option` looks a letter up in the string as it stands, and
so it finds what is declared, and it finds the `:` as well. This module determines when a
call reads a letter of a cluster as the string declares it.
-/

import BasC.Cli.OptAccount

namespace BasC

open CChar

/-- A letter that an `optstring` declares. -/
structure LetterDecl where
  letter : CChar
  kind : HasArg
  letter_ne : letter ≠ colon

/-- The letter as it is written, with a `:` for a required argument and two for an optional
one. -/
def LetterDecl.text (decl : LetterDecl) : CString :=
  decl.letter :: List.replicate decl.kind.code colon

/-- An `optstring` in the syntax of `getopt`. -/
structure Optstring where
  decls : List LetterDecl
  distinct : (decls.map LetterDecl.letter).Nodup

namespace Optstring

/-- The `optstring` as it is written. -/
def text (optstring : Optstring) : CString := optstring.decls.flatMap LetterDecl.text

/-- What each call gets. -/
def commandLine (optstring : Optstring) (argv : List (Option CPointer))
    (longopts : Option (List LongOption)) : CommandLine :=
  ⟨argv, some optstring.text, longopts⟩

end Optstring

/-- Behind the colons of a letter there is none. -/
theorem head_flatMap_text (decls : List LetterDecl) :
    (decls.flatMap LetterDecl.text)[0]? ≠ some colon := by
  cases decls with
  | nil => simp
  | cons decl decls => simpa [LetterDecl.text] using decl.letter_ne

/-- The text of other letters contains neither the letter nor anything but letters and colons. -/
theorem notMem_flatMap_text {decls : List LetterDecl} {c : CChar} (hc : c ≠ colon)
    (hnone : ∀ decl ∈ decls, decl.letter ≠ c) : c ∉ decls.flatMap LetterDecl.text := by
  intro hmem
  obtain ⟨decl, hdecl, htext⟩ := List.mem_flatMap.mp hmem
  rcases List.mem_cons.mp htext with rfl | hcolon
  · exact hnone decl hdecl rfl
  · exact hc (List.eq_of_mem_replicate hcolon)

/-- **A declared letter is found with its own colons.** -/
theorem Optstring.findShortOption_of_mem (optstring : Optstring) {decl : LetterDecl}
    (hdecl : decl ∈ optstring.decls) :
    findShortOption (some optstring.text) decl.letter = decl.kind.code := by
  obtain ⟨before, after, hsplit⟩ := List.append_of_mem hdecl
  have hdistinct := optstring.distinct
  rw [hsplit, List.map_append, List.nodup_append] at hdistinct
  apply Declares.findShortOption_eq
  refine ⟨before.flatMap LetterDecl.text, after.flatMap LetterDecl.text, ?_, ?_, fun _ => ?_⟩
  · rw [text, hsplit, List.flatMap_append, List.flatMap_cons, LetterDecl.text, List.cons_append]
  · apply notMem_flatMap_text decl.letter_ne
    intro other hother
    exact hdistinct.2.2 _ (List.mem_map_of_mem hother) _ List.mem_cons_self
  · exact head_flatMap_text after

/-- A character that the string does not contain is not found. -/
theorem findLetter_eq_neg_one {text : CString} {c : CChar} (hnone : c ∉ text) :
    findLetter text c = -1 := by
  induction text with
  | nil => rfl
  | cons d text ih =>
      rw [List.mem_cons, not_or] at hnone
      rw [findLetter, if_neg (Ne.symm hnone.1), ih hnone.2]

/-- **A character that is neither a letter nor a `:` is not found.** -/
theorem Optstring.findShortOption_of_notMem (optstring : Optstring) {c : CChar} (hc : c ≠ colon)
    (hnone : ∀ decl ∈ optstring.decls, decl.letter ≠ c) :
    findShortOption (some optstring.text) c = -1 :=
  findLetter_eq_neg_one (notMem_flatMap_text hc hnone)

/-- The first letter with an argument. -/
def Optstring.firstWithArgument (optstring : Optstring) : Option LetterDecl :=
  optstring.decls.find? fun decl => decl.kind ≠ .no

/-- **A `:` is found where the first one stands**, and a second one counts as its argument. -/
theorem Optstring.findShortOption_colon (optstring : Optstring) :
    findShortOption (some optstring.text) colon =
      match optstring.firstWithArgument with
      | some decl => (decl.kind.code : ℤ) - 1
      | none => -1 := by
  rw [findShortOption, text, firstWithArgument]
  induction optstring.decls with
  | nil => rfl
  | cons first decls ih =>
      have hrest := head_flatMap_text decls
      rw [List.flatMap_cons, LetterDecl.text, List.cons_append, findLetter, if_neg first.letter_ne,
        List.find?_cons]
      cases hkind : first.kind with
      | no => simpa [HasArg.code] using ih
      | required => simp [HasArg.code, findLetter, hrest, hkind]
      | optional => simp [HasArg.code, List.replicate, findLetter, hrest, hkind]

/-- What an option behind position `k` of a cluster makes of `optarg` and of the cursor. -/
inductive TakesArgument (line : CommandLine) (text : CString) (arg : CPointer) (optind k : ℕ)
    (parser' : OptParser) : HasArg → Prop
  /-- There is no argument: the next letter or the next element is next. -/
  | next {kind : HasArg} (hkind : kind = .no ∨ kind = .optional ∧ text.length ≤ k + 1)
      (hoptarg : parser'.optarg = none)
      (hcursor : parser'.cursor =
        if k + 1 < text.length then toLex (optind, k + 1) else toLex (optind + 1, 0)) :
      TakesArgument line text arg optind k parser' kind
  /-- The argument is what is left of the element. -/
  | attached {kind : HasArg} (hkind : kind ≠ .no) (hmore : k + 1 < text.length)
      (hoptarg : parser'.optarg = some (arg.add (k + 1)))
      (hcursor : parser'.cursor = toLex (optind + 1, 0)) :
      TakesArgument line text arg optind k parser' kind
  /-- The argument is the next element. -/
  | separate (hlast : text.length ≤ k + 1) (hnext : optind + 1 < line.argv.length)
      (hoptarg : parser'.optarg = line.element (optind + 1))
      (hcursor : parser'.cursor = toLex (optind + 2, 0)) :
      TakesArgument line text arg optind k parser' .required

/-- The letter at the cursor of the cluster that the parser is at. -/
def OptParser.AtLetter (line : CommandLine) (memory : Memory) (parser : OptParser)
    (arg : CPointer) (c : CChar) : Prop :=
  line.element parser.optind = some arg ∧ IsCluster (memory.read arg) ∧
    (memory.read arg)[(parser.enter arg).shortOptPos]? = some c

/-- A call that finds this state reads the letter at the cursor as it is declared: it returns
`'?'`, or a letter of the `optstring` with its argument; and it returns `'?'` for any other
character. -/
def ReadsAsDeclared (optstring : Optstring) (line : CommandLine) (memory : Memory)
    (parser : OptParser) : Prop :=
  ∀ arg c, parser.AtLetter line memory arg c →
    ((optParseLong line parser memory).ret ≠ question.toInt →
      ∃ decl ∈ optstring.decls, (optParseLong line parser memory).ret = decl.letter.toInt ∧
        decl.letter = c ∧
        TakesArgument line (memory.read arg) arg parser.optind (parser.enter arg).shortOptPos
          (optParseLong line parser memory).parser decl.kind) ∧
    ((∀ decl ∈ optstring.decls, decl.letter ≠ c) →
      (optParseLong line parser memory).ret = question.toInt)

/-- The letter at the cursor is a `:`, and the first `:` of the `optstring` makes an option of
it: it has no `:` behind it, or there is something to take for its argument. -/
def MistakesColon (optstring : Optstring) (line : CommandLine) (memory : Memory)
    (parser : OptParser) : Prop :=
  ∃ arg decl, parser.AtLetter line memory arg colon ∧
    optstring.firstWithArgument = some decl ∧
    (decl.kind = .required ∨
      (parser.enter arg).shortOptPos + 1 < (memory.read arg).length ∨
      parser.optind + 1 < line.argv.length)

section Letter

variable {line : CommandLine} {parser : OptParser} {memory : Memory} {arg : CPointer} {c : CChar}
  {before after : CString} {kind : HasArg}

/-- The letter at the cursor is read next. -/
theorem OptParser.AtLetter.reads (hat : parser.AtLetter line memory arg c) :
    ∃ before after, parser.Reads line memory arg before (c :: after) ∧
      (parser.enter arg).shortOptPos = before.length := by
  obtain ⟨harg, hcluster, hletter⟩ := hat
  obtain ⟨hbound, hget⟩ := List.getElem?_eq_some_iff.mp hletter
  have hlength : ((memory.read arg).take (parser.enter arg).shortOptPos).length =
      (parser.enter arg).shortOptPos := by
    rw [List.length_take]
    exact Nat.min_eq_left (Nat.le_of_lt hbound)
  have hargc : parser.optind < line.argv.length := by
    by_contra hend
    rw [CommandLine.element, List.getElem?_eq_none (Nat.le_of_not_lt hend)] at harg
    cases harg
  refine ⟨_, (memory.read arg).drop ((parser.enter arg).shortOptPos + 1),
    ⟨hargc, harg, ?_, hcluster, hlength.symm⟩, hlength.symm⟩
  rw [← hget, List.getElem_cons_drop, List.take_append_drop]

/-- A letter whose argument is missing. -/
theorem step_missing (hreads : parser.Reads line memory arg before [c])
    (hkind : findShortOption line.optstring c = HasArg.required.code)
    (hargc : line.argv.length ≤ parser.optind + 1) :
    optParseStep line parser memory = (parser.entered arg).leave.refuseLetter memory c
      (missingShortArgument (line.programName memory) c) := by
  rw [hreads.step]
  simp only [parseShortOption]
  rw [← OptParser.entered, hreads.letter.1, hreads.pass_last]
  simp [hkind, HasArg.code, OptParser.leave, Nat.not_lt.mpr hargc]

/-- A letter that is not found. -/
theorem step_unknown (hreads : parser.Reads line memory arg before (c :: after))
    (hnone : findShortOption line.optstring c = -1) :
    optParseStep line parser memory =
      ((parser.entered arg).pass (memory.read arg)).refuseLetter memory c
        (invalidOption (line.programName memory) c) := by
  rw [hreads.step]
  simp only [parseShortOption]
  rw [← OptParser.entered, hreads.letter.1]
  simp [hnone]

/-- **A letter that is found** is returned with its argument, or its argument is missing. -/
theorem OptParser.Reads.found (hreads : parser.Reads line memory arg before (c :: after))
    (hkind : findShortOption line.optstring c = kind.code) :
    (kind = .required ∧ after = [] ∧ line.argv.length ≤ parser.optind + 1 ∧
        (optParseLong line parser memory).ret = question.toInt) ∨
      (kind = .required → after ≠ [] ∨ parser.optind + 1 < line.argv.length) ∧
        (optParseLong line parser memory).ret = c.toInt ∧
        TakesArgument line (memory.read arg) arg parser.optind before.length
          (optParseLong line parser memory).parser kind := by
  have hlength : (memory.read arg).length = before.length + (after.length + 1) := by
    rw [hreads.text, List.length_append, List.length_cons]
  by_cases hafter : after = []
  · subst hafter
    have hlast : (memory.read arg).length ≤ before.length + 1 := hlength.le
    by_cases hrequired : kind = .required
    · subst hrequired
      by_cases hargc : parser.optind + 1 < line.argv.length
      · rw [optParseLong_of_returned (step_separate hreads hkind hargc)]
        refine .inr ⟨fun _ => .inr hargc, rfl, .separate hlast hargc rfl ?_⟩
        simp [OptParser.cursor, OptParser.leave]
      · rw [Nat.not_lt] at hargc
        rw [optParseLong_of_returned (step_missing hreads hkind hargc)]
        exact .inl ⟨rfl, rfl, hargc, rfl⟩
    · rw [optParseLong_of_returned (step_bare hreads hkind hrequired)]
      refine .inr ⟨fun h => absurd h hrequired, rfl, .next ?_ (parser.entered_optarg arg) ?_⟩
      · cases kind with
        | no => exact .inl rfl
        | required => exact absurd rfl hrequired
        | optional => exact .inr ⟨rfl, hlast⟩
      · rw [if_neg (Nat.not_lt.mpr hlast)]
        simp [OptParser.cursor, OptParser.leave]
  · have hmore : before.length + 1 < (memory.read arg).length := by
      have := List.length_pos_of_ne_nil hafter
      omega
    by_cases hno : kind = .no
    · subst hno
      rw [optParseLong_of_returned (step_flag hreads hkind hafter)]
      refine .inr ⟨fun _ => .inl hafter, rfl, .next (.inl rfl) (parser.entered_optarg arg) ?_⟩
      rw [if_pos hmore]
      simp [OptParser.cursor, hreads.entered_behind]
    · rw [optParseLong_of_returned (step_attached hreads hkind hno hafter)]
      refine .inr ⟨fun _ => .inl hafter, rfl, .attached hno hmore rfl ?_⟩
      simp [OptParser.cursor, OptParser.leave]

/-- **A letter that is not found is refused.** -/
theorem OptParser.Reads.unknown (hreads : parser.Reads line memory arg before (c :: after))
    (hnone : findShortOption line.optstring c = -1) :
    (optParseLong line parser memory).ret = question.toInt := by
  rw [optParseLong_of_returned (step_unknown hreads hnone)]
  rfl

end Letter

section Declared

variable {optstring : Optstring} {argv : List (Option CPointer)}
  {longopts : Option (List LongOption)} {memory : Memory} {parser : OptParser} {arg : CPointer}
  {c : CChar} {before after : CString}

/-- A declared letter is read as it is declared. -/
theorem reads_declared {decl : LetterDecl} (hdecl : decl ∈ optstring.decls)
    (hreads : parser.Reads (optstring.commandLine argv longopts) memory arg before
      (decl.letter :: after)) :
    (optParseLong (optstring.commandLine argv longopts) parser memory).ret = question.toInt ∨
      (optParseLong (optstring.commandLine argv longopts) parser memory).ret =
          decl.letter.toInt ∧
        TakesArgument (optstring.commandLine argv longopts) (memory.read arg) arg parser.optind
          before.length (optParseLong (optstring.commandLine argv longopts) parser memory).parser
          decl.kind := by
  rcases hreads.found (optstring.findShortOption_of_mem hdecl) with
    ⟨-, -, -, hmissing⟩ | ⟨-, hfound⟩
  · exact .inl hmissing
  · exact .inr hfound

/-- What `find_short_option` says of a `:`, as a kind of argument. -/
theorem findShortOption_colon_cases (optstring : Optstring) :
    optstring.firstWithArgument = none ∧ findShortOption (some optstring.text) colon = -1 ∨
      ∃ decl, optstring.firstWithArgument = some decl ∧
        (decl.kind = .required ∧
            findShortOption (some optstring.text) colon = HasArg.no.code ∨
          decl.kind = .optional ∧
            findShortOption (some optstring.text) colon = HasArg.required.code) := by
  have hfind := optstring.findShortOption_colon
  cases hfirst : optstring.firstWithArgument with
  | none => exact .inl ⟨rfl, by rw [hfind, hfirst]⟩
  | some decl =>
      have hkind : decl.kind ≠ .no := by simpa using List.find?_some hfirst
      rw [hfirst] at hfind
      refine .inr ⟨decl, rfl, ?_⟩
      cases hcode : decl.kind with
      | no => exact absurd hcode hkind
      | required =>
          simp only [hcode] at hfind
          exact .inl ⟨rfl, hfind⟩
      | optional =>
          simp only [hcode] at hfind
          exact .inr ⟨rfl, hfind⟩

/-- **A `:` in a cluster** is refused, unless it is mistaken for an option. -/
theorem reads_colon (hreads : parser.Reads (optstring.commandLine argv longopts) memory arg before
    (colon :: after)) :
    (optParseLong (optstring.commandLine argv longopts) parser memory).ret = question.toInt ↔
      ¬ ∃ decl, optstring.firstWithArgument = some decl ∧
        (decl.kind = .required ∨ after ≠ [] ∨ parser.optind + 1 < argv.length) := by
  have hcolon : colon.toInt ≠ question.toInt := by decide
  rcases findShortOption_colon_cases optstring with
    ⟨hnone, hfind⟩ | ⟨decl, hfirst, ⟨hkind, hfind⟩ | ⟨hkind, hfind⟩⟩
  · simp [hreads.unknown hfind, hnone]
  · rcases hreads.found hfind with ⟨hno, -⟩ | ⟨-, hret, -⟩
    · cases hno
    · simp [hret, hcolon, hfirst, hkind]
  · rcases hreads.found hfind with ⟨-, hlast, hargc, hret⟩ | ⟨hroom, hret, -⟩
    · simp only [hret, hfirst, Option.some.injEq, true_iff]
      rintro ⟨_, rfl, hrequired | hmore | hnext⟩
      · rw [hkind] at hrequired
        cases hrequired
      · exact hmore hlast
      · exact absurd hnext (Nat.not_lt.mpr hargc)
    · rw [hret]
      refine iff_of_false hcolon (not_not.mpr ⟨decl, hfirst, .inr (hroom rfl)⟩)

/-- A state is fine unless its letter is a `:` that is mistaken for an option. -/
theorem readsAsDeclared_iff_not_mistakesColon (optstring : Optstring)
    (argv : List (Option CPointer)) (longopts : Option (List LongOption)) (memory : Memory)
    (parser : OptParser) :
    ReadsAsDeclared optstring (optstring.commandLine argv longopts) memory parser ↔
      ¬ MistakesColon optstring (optstring.commandLine argv longopts) memory parser := by
  constructor
  · rintro hdeclared ⟨arg, decl, hat, hfirst, htakes⟩
    obtain ⟨before, after, hreads, hk⟩ := hat.reads
    have hlength : (memory.read arg).length = before.length + (after.length + 1) := by
      rw [hreads.text, List.length_append, List.length_cons]
    have hret := (hdeclared arg colon hat).2 fun decl _ => decl.letter_ne
    apply (reads_colon hreads).mp hret
    refine ⟨decl, hfirst, htakes.imp_right (Or.imp_left fun hmore hnil => ?_)⟩
    rw [hk, hlength, hnil, List.length_nil] at hmore
    omega
  · intro hfine arg c hat
    obtain ⟨before, after, hreads, hk⟩ := hat.reads
    rw [hk]
    by_cases hdecl : ∃ decl ∈ optstring.decls, decl.letter = c
    · obtain ⟨decl, hdecl, rfl⟩ := hdecl
      refine ⟨fun hret => ?_, fun hnone => absurd rfl (hnone decl hdecl)⟩
      obtain ⟨hfound, htakes⟩ := (reads_declared hdecl hreads).resolve_left hret
      exact ⟨decl, hdecl, hfound, rfl, htakes⟩
    · have hrefused : (optParseLong (optstring.commandLine argv longopts) parser memory).ret =
          question.toInt := by
        by_cases hcolon : c = colon
        · subst hcolon
          apply (reads_colon hreads).mpr
          rintro ⟨decl, hfirst, htakes⟩
          refine hfine ⟨arg, decl, hat, hfirst, htakes.imp_right (Or.imp_left fun hmore => ?_)⟩
          have hpos := List.length_pos_of_ne_nil hmore
          rw [hk, hreads.text, List.length_append, List.length_cons]
          omega
        · apply hreads.unknown
          exact optstring.findShortOption_of_notMem hcolon fun decl hmem heq =>
            hdecl ⟨decl, hmem, heq⟩
      exact ⟨fun hret => absurd hrefused hret, fun _ => hrefused⟩

end Declared

/-- **When only declared letters are accepted.** In every state that calls of
`opt_parse_long` lead to, the next call reads the letter at the cursor as the `optstring`
declares it, exactly when that is not a `:` that is mistaken for an option. -/
theorem readsAsDeclared_iff (optstring : Optstring) (argv : List (Option CPointer))
    (longopts : Option (List LongOption)) (memory : Memory) :
    ∀ parser memory', OptReachable (optstring.commandLine argv longopts) memory parser memory' →
      (ReadsAsDeclared optstring (optstring.commandLine argv longopts) memory' parser ↔
        ¬ MistakesColon optstring (optstring.commandLine argv longopts) memory' parser) :=
  fun parser memory' _ =>
    readsAsDeclared_iff_not_mistakesColon optstring argv longopts memory' parser

/-- The option string `x:`. -/
def requiresX : Optstring where
  decls := [⟨lowerX, .required, by decide⟩]
  distinct := List.pairwise_singleton _ _

/-- The command line `prog -x`, before its first call. -/
theorem readsAsDeclared_iff_missing :
    ReadsAsDeclared requiresX (requiresX.commandLine [some ⟨0, 0⟩, some ⟨1, 0⟩] none)
        (oneElementMemory (cstr "-x")) .init ↔
      ¬ MistakesColon requiresX (requiresX.commandLine [some ⟨0, 0⟩, some ⟨1, 0⟩] none)
        (oneElementMemory (cstr "-x")) .init :=
  readsAsDeclared_iff requiresX _ none _ _ _ .init

/-- `prog -:` has an option `:` where the option string is `x:`. -/
theorem not_readsAsDeclared_colon :
    ¬ ReadsAsDeclared requiresX (requiresX.commandLine [some ⟨0, 0⟩, some ⟨1, 0⟩] none)
      (oneElementMemory (cstr "-:")) .init := by
  rw [readsAsDeclared_iff_not_mistakesColon, not_not]
  have hcluster : IsCluster ((oneElementMemory (cstr "-:")).read ⟨1, 0⟩) :=
    ⟨by decide +kernel, by decide +kernel, by decide +kernel⟩
  exact ⟨⟨1, 0⟩, ⟨lowerX, .required, by decide⟩, ⟨rfl, hcluster, by decide +kernel⟩, rfl, .inl rfl⟩

end BasC
