/-
# Comments

`skip_comments` is applied to the line, where a `#` makes a comment of everything up to the
end of the line, and again to each statement after the line has been cut at semicolons. A
`#` at the start of a later statement hides that statement only: behind the next `;` of the
comment, its text is executed.

This module determines the comments behind a `;` that change nothing.
-/

import BasC.Cli.AliasTermination
import BasC.Cli.Sequencing

namespace BasC

open CChar Lib Traced

variable {σ : Type}

/-- A statement text without a command name: blank, a comment, or redirections only. -/
def Inert (text : CString) : Prop := readStatement .source text = none

instance (text : CString) : Decidable (Inert text) :=
  inferInstanceAs (Decidable (readStatement .source text = none))

/-- Without a command name, nothing is done and 0 is returned. -/
theorem observed_executeStatement_of_inert {text : CString} (hinert : Inert text)
    (parser : Parser σ) : observed (executeStatement .source parser text) = pure 0 := by
  unfold executeStatement
  rw [observed_bind, observed_prepareStatement, hinert, Option.elim_none, Traced.pure_bind]
  rfl

theorem observed_executeAll_of_inert {statements : List CString}
    (hinert : ∀ statement ∈ statements, Inert statement) (parser : Parser σ) :
    observed (executeAll .source parser statements) = pure 0 := by
  induction statements with
  | nil => rfl
  | cons statement statements ih =>
      rw [List.forall_mem_cons] at hinert
      rw [executeAll, observed_bind, observed_executeStatement_of_inert hinert.1, Traced.pure_bind]
      exact ih hinert.2

/-- Something of the run is seen from outside. -/
def Seen (events : List Event) : Prop := ∃ e ∈ events, e.isInternal = false

theorem Seen.append_left {events : List Event} (hseen : Seen events) (rest : List Event) :
    Seen (events ++ rest) := by
  obtain ⟨e, he, hvisible⟩ := hseen
  exact ⟨e, List.mem_append_left rest he, hvisible⟩

theorem Seen.append_right {rest : List Event} (hseen : Seen rest) (events : List Event) :
    Seen (events ++ rest) := by
  obtain ⟨e, he, hvisible⟩ := hseen
  exact ⟨e, List.mem_append_right events he, hvisible⟩

theorem Reports.seen {events : List Event} (hreports : Reports events) : Seen events := by
  obtain ⟨message, hmem⟩ := hreports
  exact ⟨.error message, hmem, rfl⟩

/-- A command is reported as invalid when there is nobody to ask about it. -/
theorem seen_dispatch (parser : Parser σ) (command : Command) (redir : Redirection) :
    (dispatch parser command redir).Leaves Seen := by
  intro world
  by_cases hnobody : AsksNobody parser
  · obtain ⟨⟨message, htrace⟩, -⟩ := dispatch_of_asksNobody hnobody command redir world
    rw [htrace]
    exact ⟨.error message, List.mem_singleton_self _, rfl⟩
  · obtain ⟨index, hasked⟩ := dispatch_asks hnobody command redir world
    exact ⟨.canHandle index command, hasked, rfl⟩

/-- A statement with a command name shows that it was there. -/
theorem ensures_executeStatement_of_not_inert {text : CString} (hname : ¬ Inert text)
    (parser : Parser σ) (world : World σ) :
    (executeStatement .source parser text).Ensures world fun events _ _ => Seen events := by
  refine ensures_bind (ensures_prepareStatement .source parser text world) ?_
  rintro events _ world' (⟨hread, -⟩ | ⟨parts, -, ⟨rfl, hreports, -⟩ | ⟨command, rfl, -⟩⟩)
  · exact absurd hread hname
  · exact ensures_pure (hreports.seen.append_left [])
  · exact ((seen_dispatch parser command parts.2.2).ensures world').mono
      fun _ _ _ hseen => hseen.append_right events

/-- Statements that return 0 and show nothing have no command name. -/
theorem ensures_executeAll (parser : Parser σ) (statements : List CString) (world : World σ) :
    (executeAll .source parser statements).Ensures world fun events ret _ =>
      Seen events ∨ ret ≠ 0 ∨ ∀ statement ∈ statements, Inert statement := by
  induction statements generalizing world with
  | nil => exact ensures_pure (.inr (.inr (by simp)))
  | cons statement statements ih =>
      by_cases hinert : Inert statement
      · refine ensures_bind (Q := fun _ _ _ => True) (fun _ _ _ => trivial) ?_
        intro events result world' _
        by_cases hresult : result ≠ 0
        · rw [if_pos hresult]
          exact ensures_pure (.inr (.inl hresult))
        · rw [if_neg hresult]
          refine (ih world').mono fun rest ret _ hrest => ?_
          rcases hrest with hseen | hne | hall
          · exact .inl (hseen.append_right events)
          · exact .inr (.inl hne)
          · exact .inr (.inr (List.forall_mem_cons.mpr ⟨hinert, hall⟩))
      · refine ensures_bind (ensures_executeStatement_of_not_inert hinert parser world) ?_
        intro events result world' hseen
        exact fun ret _ _ => .inl (hseen.append_left _)

/-- A text that is blank or has a `#` as its first byte that is no white space. -/
def StartsComment (text : CString) : Prop := ∀ c ∈ (skipSpaces text).head?, c = hash

theorem isspace_hash : isspace hash = false := by decide

theorem startsComment_spaces_append {w : CString} (hblank : ∀ c ∈ w, isspace c = true)
    (t : CString) : StartsComment (w ++ hash :: t) := by
  intro c hc
  rw [skipSpaces_spaces_append hblank, skipSpaces_eq_self (by simp [isspace_hash])] at hc
  exact (Option.some.inj hc).symm

/-- Cutting the end off leaves a comment. -/
theorem StartsComment.of_front {text front : CString} (htext : StartsComment text)
    (hfront : front <+: text) : StartsComment front := by
  obtain ⟨back, rfl⟩ := hfront
  obtain ⟨lead, hlead, hspaces⟩ := exists_spaces_append_skipSpaces front
  intro c hc
  obtain ⟨rest, hrest⟩ := List.head?_eq_some_iff.mp hc
  have hnot : isspace c = false := by
    have hhead := List.head?_dropWhile_not isspace front
    rw [← skipSpaces, hrest] at hhead
    simpa using hhead
  apply htext
  rw [hlead, List.append_assoc, skipSpaces_spaces_append hspaces, hrest, List.cons_append,
    skipSpaces_eq_self (by simp [hnot])]
  rfl

/-- A statement that is blank or a comment has no command name. -/
theorem StartsComment.inert {text : CString} (htext : StartsComment text) : Inert text := by
  unfold Inert readStatement
  by_cases hempty : trimWhitespace text = []
  · rw [if_pos hempty]
  · obtain ⟨c, rest, htrim⟩ := List.exists_cons_of_ne_nil hempty
    obtain ⟨tail, hskip⟩ := dropTrailingSpaces_isPrefix (skipSpaces text)
    have hc : c = hash := by
      apply htext
      rw [← hskip, ← trimWhitespace, htrim]
      rfl
    have hcomment : skipComments (trimWhitespace text) = none := by
      unfold skipComments
      rw [skipSpaces_trimWhitespace, htrim, hc]
      exact if_pos rfl
    rw [if_neg hempty, hcomment]

/-- The pieces between semicolons of what is left of a comment in the buffer of the line. -/
def commentPieces (p comment : CString) : List CString :=
  (comment.take (2046 - (skipSpaces p).length)).splitOnP isSemicolon

/-- The comment is skipped as a whole: either the line is a comment from its start, or what
stands in it behind a `;` has no command name. -/
def CommentSkipped (p comment : CString) : Prop :=
  skipComments p = none ∨
    ∀ piece ∈ (commentPieces p comment).tail, Inert (Limits.source.fit .singleStatement piece)

/-- What `skip_comments` makes of a line with a `;` in it. -/
theorem skipComments_semicolon (p rest : CString) :
    skipComments (p ++ semicolon :: rest) = (skipComments p).map (· ++ semicolon :: rest) := by
  unfold skipComments
  by_cases hhead : (skipSpaces p).head? = some hash
  · rw [if_pos hhead, if_pos ((head?_skipSpaces_semicolon_iff p rest).mpr hhead)]
    rfl
  · rw [if_neg hhead, if_neg ((head?_skipSpaces_semicolon_iff p rest).not.mpr hhead),
      skipSpaces_append_cons p isspace_semicolon]
    rfl

/-- The statements of a line with a comment behind a `;` are those before it and the pieces
of the comment. -/
theorem statementTexts_semicolon {p : CString} (hp : skipComments p = some (skipSpaces p))
    (hroom : (skipSpaces p).length < 2047) (comment : CString) :
    statementTexts .source (p ++ semicolon :: comment) =
      statementTexts .source p ++
        (commentPieces p comment).map (Limits.source.fit .singleStatement) := by
  have hwhole : Limits.source.fit .lineCopy (skipSpaces p) = skipSpaces p :=
    source_fit_eq_self (hroom.trans (by decide))
  have hcut : Limits.source.fit .lineCopy (skipSpaces p ++ semicolon :: comment) =
      skipSpaces p ++ semicolon :: comment.take (2046 - (skipSpaces p).length) := by
    show (skipSpaces p ++ semicolon :: comment).take 2047 = _
    have hleft : 2047 - (skipSpaces p).length = 2046 - (skipSpaces p).length + 1 := by omega
    rw [List.take_append, List.take_of_length_le (by omega), hleft, List.take_succ_cons]
  unfold statementTexts
  rw [skipComments_semicolon, hp, Option.map_some]
  simp only
  rw [hcut, hwhole, List.splitOnP_append_cons _ _ rfl, List.map_append]
  rfl

/-- In a line that fills its buffer before the `;`, nothing of the comment is left. -/
theorem statementTexts_full {p : CString} (hp : skipComments p = some (skipSpaces p))
    (hfull : 2047 ≤ (skipSpaces p).length) (comment : CString) :
    statementTexts .source (p ++ semicolon :: comment) = statementTexts .source p := by
  have hcut : Limits.source.fit .lineCopy (skipSpaces p ++ semicolon :: comment) =
      Limits.source.fit .lineCopy (skipSpaces p) := List.take_append_of_le_length hfull
  unfold statementTexts
  rw [skipComments_semicolon, hp, Option.map_some]
  simp only
  rw [hcut]

/-- Two lines call, report, return and leave behind the same. -/
def SameEffect (first second : Cli σ ℤ) (world : World σ) : Prop :=
  (observed first).trace world = (observed second).trace world ∧
    first.result world = second.result world

/-- Statements behind others that returned 0 change nothing exactly when they have no command
names. -/
theorem sameEffect_executeAll_append_iff {parser : Parser σ} {first second : List CString}
    {world world' : World σ}
    (hzero : (executeAll .source parser first).result world = some (0, world')) :
    SameEffect (executeAll .source parser (first ++ second)) (executeAll .source parser first)
        world ↔ ∀ statement ∈ second, Inert statement := by
  have hrun := executeAll_append .source parser first second
  have hobserved := congrArg observed hrun
  rw [observed_bind] at hobserved
  have hzero' :
      (observed (executeAll .source parser first)).result world = some (0, world') := hzero
  have htrace : (observed (executeAll .source parser (first ++ second))).trace world =
      (observed (executeAll .source parser first)).trace world ++
        (observed (executeAll .source parser second)).trace world' := by
    rw [hobserved, trace_bind_of_eq hzero']
    rfl
  have hresult : (executeAll .source parser (first ++ second)).result world =
      (executeAll .source parser second).result world' := by
    rw [hrun, result_bind_of_eq hzero]
    rfl
  unfold SameEffect
  rw [htrace, List.append_right_eq_self, hresult, hzero]
  constructor
  · rintro ⟨hnothing, hresult'⟩
    rcases ensures_executeAll parser second world' 0 world' hresult' with
      ⟨e, he, hvisible⟩ | hne | hinert
    · have hmem : e ∈ (observed (executeAll .source parser second)).trace world' :=
        List.mem_filter.mpr ⟨he, by rw [hvisible]; rfl⟩
      rw [hnothing] at hmem
      cases hmem
    · exact absurd rfl hne
    · exact hinert
  · intro hinert
    have hpure := observed_executeAll_of_inert hinert parser
    rw [hpure]
    exact ⟨rfl, congrArg (fun m => m.result world') hpure⟩

/-- **A comment behind a `;` runs to the end of the line exactly when** nothing that stands
in it behind a `;` has a command name, or the line is a comment anyway. -/
theorem comment_runs_to_end_iff (parser : Parser σ) (p w t : CString) (world world' : World σ)
    (hblank : ∀ c ∈ w, isspace c = true)
    (hzero : (parseLine .source parser p).result world = some (0, world')) :
    SameEffect (parseLine .source parser (p ++ semicolon :: (w ++ hash :: t)))
        (parseLine .source parser p) world ↔ CommentSkipped p (w ++ hash :: t) := by
  cases hcomment : skipComments p with
  | none =>
      have hline : skipComments (p ++ semicolon :: (w ++ hash :: t)) = none := by
        rw [skipComments_semicolon, hcomment]
        rfl
      unfold SameEffect parseLine
      rw [hline, hcomment]
      exact iff_of_true ⟨rfl, rfl⟩ (.inl hcomment)
  | some text =>
      have hp : skipComments p = some (skipSpaces p) := by
        unfold skipComments at hcomment ⊢
        split at hcomment
        · cases hcomment
        · rename_i hhead
          exact if_neg hhead
      rw [result_parseLine] at hzero
      unfold SameEffect CommentSkipped
      rw [observed_parseLine, observed_parseLine, result_parseLine, result_parseLine, hp]
      by_cases hfull : 2047 ≤ (skipSpaces p).length
      · have hnothing : commentPieces p (w ++ hash :: t) = [[]] := by
          unfold commentPieces
          rw [Nat.sub_eq_zero_of_le (by omega), List.take_zero, List.splitOnP_nil]
        rw [statementTexts_full hp hfull, hnothing]
        exact iff_of_true ⟨rfl, rfl⟩ (.inr (by simp))
      · rw [statementTexts_semicolon hp (by omega)]
        refine (sameEffect_executeAll_append_iff hzero).trans ?_
        obtain ⟨piece, pieces, hpieces⟩ := List.exists_cons_of_ne_nil
          (List.splitOnP_ne_nil isSemicolon
            ((w ++ hash :: t).take (2046 - (skipSpaces p).length)))
        -- The first piece starts with the `#`, or is cut in front of it.
        have hfirst : Inert (Limits.source.fit .singleStatement piece) := by
          have hstarts := startsComment_spaces_append hblank t
          have hfront := (isPrefix_of_splitOnP_eq_cons hpieces).trans (List.take_prefix _ _)
          exact ((hstarts.of_front hfront).of_front (List.take_prefix _ _)).inert
        unfold commentPieces
        rw [hpieces, List.map_cons, List.forall_mem_cons, List.forall_mem_map, List.tail_cons]
        constructor
        · exact fun hall => .inr hall.2
        · rintro (hnone | hall)
          · cases hnone
          · exact ⟨hfirst, hall⟩

/-- In `echo a; #b; #c` a comment goes on behind its `;`, and nothing of it is run. -/
theorem comment_runs_to_end_echo :
    SameEffect (parseLine .source acceptingParser
        (cstr "echo a" ++ semicolon :: (cstr " " ++ hash :: cstr "b; #c")))
      (parseLine .source acceptingParser (cstr "echo a")) ⟨none, ⟨⟩⟩ := by
  have hblank : ∀ c ∈ cstr " ", isspace c = true := by decide +kernel
  have hret : ((parseLine .source acceptingParser (cstr "echo a")).result ⟨none, ⟨⟩⟩).map
      Prod.fst = some 0 := by
    decide +kernel
  obtain ⟨⟨ret, world'⟩, hzero, rfl⟩ := Option.map_eq_some_iff.mp hret
  have hskipped : CommentSkipped (cstr "echo a") (cstr " " ++ hash :: cstr "b; #c") :=
    .inr (by decide +kernel)
  exact (comment_runs_to_end_iff acceptingParser (cstr "echo a") (cstr " ") (cstr "b; #c")
    ⟨none, ⟨⟩⟩ world' hblank hzero).mpr hskipped

/-- In `;#a;b` the comment ends at its `;`, and `b` is run: it is reported as an invalid
command. -/
theorem not_sameEffect_comment_semicolon :
    ¬ ∀ (parser : Parser PUnit) (p w t : CString) (world world' : World PUnit),
      (∀ c ∈ w, isspace c = true) →
      (parseLine .source parser p).result world = some (0, world') →
      SameEffect (parseLine .source parser (p ++ semicolon :: (w ++ hash :: t)))
        (parseLine .source parser p) world := by
  intro hall
  have hzero : (parseLine .source bareParser []).result ⟨none, ⟨⟩⟩ = some (0, ⟨none, ⟨⟩⟩) := by
    rw [result_parseLine]
    rfl
  have hsame := (hall bareParser [] [] (cstr "a;b") ⟨none, ⟨⟩⟩ ⟨none, ⟨⟩⟩ (by simp) hzero).2
  have hreturned : ((parseLine .source bareParser
      ([] ++ semicolon :: ([] ++ hash :: cstr "a;b"))).result ⟨none, ⟨⟩⟩).map Prod.fst =
        some (-1) := by
    rw [result_parseLine]
    decide +kernel
  rw [hsame, hzero] at hreturned
  exact absurd hreturned (by decide)

end BasC
