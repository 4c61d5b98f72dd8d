/-
# Statements of a line

`cli_parser_parse_line` executes one statement for each piece between semicolons, and
stops at the first that does not return 0. It looks for `;` in the raw text, while the
argument parser reads quotes and escapes. This module determines the lines on which the
pieces are those between the exposed semicolons.
-/

import BasC.Cli.Parser
import BasC.Lib.Pieces

namespace BasC

open CChar Lib

variable {σ : Type}

def isSemicolon (c : CChar) : Bool := c = semicolon

/-- Copy and execute statements until one does not return 0. -/
def runStatements (limits : Limits) (parser : Parser σ) : List CString → Cli σ ℤ
  | [] => pure 0
  | statement :: statements => do
      let singleStatement ← copyInto limits .singleStatement statement
      let result ← executeStatement limits parser singleStatement
      if result ≠ 0 then pure result else runStatements limits parser statements

/-- **The loop runs the pieces between semicolons.** -/
theorem statementLoop_eq (limits : Limits) (parser : Parser σ) (statementStart : CString) :
    statementLoop limits parser statementStart =
      runStatements limits parser (statementStart.splitOnP isSemicolon) := by
  fun_induction statementLoop limits parser statementStart with
  | case1 statementStart statement statementEnd hfound ih =>
      obtain ⟨rfl, hnot, after, rfl⟩ := strchr_eq_some hfound
      have hpieces : (statement ++ semicolon :: after).splitOnP isSemicolon =
          statement :: after.splitOnP isSemicolon := by
        apply List.splitOnP_append_cons_of_forall_mem
        · intro c hc
          simp only [isSemicolon, decide_eq_false_iff_not]
          rintro rfl
          exact hnot hc
        · rfl
      rw [hpieces, runStatements]
      rw [List.tail_cons] at ih
      simp only [List.tail_cons, ih]
  | case2 statementStart hfound =>
      have hnot := (strchr_eq_none_iff statementStart semicolon).mp hfound
      have hpieces : statementStart.splitOnP isSemicolon = [statementStart] := by
        apply List.splitOnP_eq_singleton
        intro c hc
        simp only [isSemicolon, decide_eq_false_iff_not]
        rintro rfl
        exact hnot hc
      rw [hpieces, runStatements, runStatements]

/-- The texts that `cli_parser_parse_line` hands to `execute_statement`, as long as every
statement returns 0. -/
def statementTexts (limits : Limits) (line : CString) : List CString :=
  match skipComments line with
  | none => []
  | some nonComment =>
      ((limits.fit .lineCopy nonComment).splitOnP isSemicolon).map (limits.fit .singleStatement)

/-- Execute statements until one does not return 0. -/
def executeAll (limits : Limits) (parser : Parser σ) : List CString → Cli σ ℤ
  | [] => pure 0
  | statement :: statements => do
      let result ← executeStatement limits parser statement
      if result ≠ 0 then pure result else executeAll limits parser statements

/-- An event inside the parser: a copy into one of its buffers, or an assignment to
`cmd_argv`. -/
def Event.isInternal : Event → Bool
  | .copied _ _ => true
  | .stored _ => true
  | _ => false

/-- What a run does that its callbacks and its caller see: the calls of the argument parser
and of the handlers, the errors reported, the value returned and the world left behind. -/
def observed {α : Type} (m : Cli σ α) : Cli σ α := m.hide Event.isInternal

theorem result_observed {α : Type} (m : Cli σ α) (world : World σ) :
    (observed m).result world = m.result world := rfl

theorem observed_bind {α β : Type} (m : Cli σ α) (next : α → Cli σ β) :
    observed (m >>= next) = observed m >>= fun a => observed (next a) :=
  Traced.hide_bind Event.isInternal m next

/-- A copy is seen only by what comes after it. -/
theorem observed_copyInto_bind {α : Type} (limits : Limits) (buffer : Buffer) (text : CString)
    (next : CString → Cli σ α) :
    observed (copyInto limits buffer text >>= next) =
      observed (next (limits.fit buffer text)) := by
  have hcopy : observed (copyInto limits buffer text : Cli σ CString) =
      pure (limits.fit buffer text) := by
    unfold copyInto observed
    rw [Traced.hide_bind, Traced.hide_emit rfl, Traced.pure_bind, Traced.hide_pure]
  rw [observed_bind, hcopy, Traced.pure_bind]

theorem observed_runStatements (limits : Limits) (parser : Parser σ) (statements : List CString) :
    observed (runStatements limits parser statements) =
      observed (executeAll limits parser (statements.map (limits.fit .singleStatement))) := by
  induction statements with
  | nil => rfl
  | cons statement statements ih =>
      rw [runStatements, List.map_cons, executeAll, observed_copyInto_bind, observed_bind,
        observed_bind]
      congr 1
      funext result
      split
      · rfl
      · exact ih

/-- **A line does what its statement texts do.** -/
theorem observed_parseLine (limits : Limits) (parser : Parser σ) (line : CString) :
    observed (parseLine limits parser line) =
      observed (executeAll limits parser (statementTexts limits line)) := by
  unfold parseLine statementTexts
  cases skipComments line with
  | none => rfl
  | some nonComment =>
      simp only
      rw [observed_copyInto_bind, statementLoop_eq, observed_runStatements]

/-- What a line returns and leaves behind is what its statement texts do. -/
theorem result_parseLine (limits : Limits) (parser : Parser σ) (line : CString)
    (world : World σ) :
    (parseLine limits parser line).result world =
      (executeAll limits parser (statementTexts limits line)).result world := by
  rw [← result_observed, observed_parseLine, result_observed]

/-- A `;` that is neither inside quotes nor behind a backslash. -/
def isExposedSemicolon (letter : CChar × Bool) : Bool := isSemicolon letter.1 && !letter.2

/-- The pieces of a line between its exposed semicolons. -/
def exposedPieces (line : CString) : List CString :=
  match skipComments line with
  | none => []
  | some nonComment =>
      ((argLexicon.marks .start nonComment).splitOnP isExposedSemicolon).map (List.map Prod.fst)

/-- No `;` of the text is quoted or escaped. -/
def SemicolonsExposed (text : CString) : Prop :=
  ∀ letter ∈ argLexicon.marks .start text, isSemicolon letter.1 = true → letter.2 = false

/-- The text and its pieces fit the buffers of the line and of the statement. -/
def FitsLineBuffers (text : CString) : Prop :=
  text.length < Buffer.lineCopy.size ∧
    ∀ piece ∈ text.splitOnP isSemicolon, piece.length < Buffer.singleStatement.size

theorem marks_splitOnP_isSemicolon (text : CString) :
    ((argLexicon.marks .start text).splitOnP fun letter => isSemicolon letter.1).map
        (List.map Prod.fst) = text.splitOnP isSemicolon := by
  rw [map_splitOnP, Lexicon.map_fst_marks]

theorem length_marks (text : CString) :
    (argLexicon.marks .start text).length = text.length := by
  have hlength := congrArg List.length (argLexicon.map_fst_marks .start text)
  rwa [List.length_map] at hlength

/-- A text keeps its length in a buffer exactly when it fits. -/
theorem length_source_fit_eq_iff (buffer : Buffer) (text : CString) :
    (Limits.source.fit buffer text).length = text.length ↔ text.length < buffer.size := by
  have hsize : 0 < buffer.size := by cases buffer <;> decide
  show (text.take (buffer.size - 1)).length = text.length ↔ _
  rw [List.length_take]
  omega

theorem length_source_fit_le (buffer : Buffer) (text : CString) :
    (Limits.source.fit buffer text).length ≤ text.length := by
  show (text.take (buffer.size - 1)).length ≤ text.length
  rw [List.length_take]
  omega

/-- When the pieces handed on take the room of the whole line, nothing was cut. -/
theorem fitsLineBuffers_of_span {text : CString}
    (hspan : text.length + 1 ≤ span (((Limits.source.fit .lineCopy text).splitOnP isSemicolon).map
      (Limits.source.fit .singleStatement))) : FitsLineBuffers text := by
  have hpieces := span_splitOnP isSemicolon (Limits.source.fit .lineCopy text)
  have hcut := span_map_le (length_source_fit_le .singleStatement)
    ((Limits.source.fit .lineCopy text).splitOnP isSemicolon)
  have hline := length_source_fit_le .lineCopy text
  have hfits : text.length < Buffer.lineCopy.size :=
    (length_source_fit_eq_iff .lineCopy text).mp (by omega)
  have hwhole : ∀ piece ∈ (Limits.source.fit .lineCopy text).splitOnP isSemicolon,
      (Limits.source.fit .singleStatement piece).length = piece.length :=
    length_eq_of_span_map_eq (length_source_fit_le .singleStatement) (by omega)
  rw [source_fit_eq_self hfits] at hwhole
  exact ⟨hfits, fun piece hpiece =>
    (length_source_fit_eq_iff .singleStatement piece).mp (hwhole piece hpiece)⟩

/-- In buffers that hold the line and its pieces, the statements are the pieces at every `;`. -/
theorem FitsLineBuffers.pieces_eq {text : CString} (hfits : FitsLineBuffers text) :
    ((Limits.source.fit .lineCopy text).splitOnP isSemicolon).map
      (Limits.source.fit .singleStatement) = text.splitOnP isSemicolon := by
  rw [source_fit_eq_self hfits.1]
  calc
    _ = (text.splitOnP isSemicolon).map id :=
      List.map_congr_left fun piece hpiece => source_fit_eq_self (hfits.2 piece hpiece)
    _ = _ := List.map_id _

theorem span_exposed (text : CString) :
    span (((argLexicon.marks .start text).splitOnP isExposedSemicolon).map (List.map Prod.fst)) =
      text.length + 1 := by
  rw [span_map_map, span_splitOnP, length_marks]

/-- **Statements are the pieces between exposed semicolons exactly when no `;` is quoted
or escaped** and nothing is cut at the end of a buffer. -/
theorem statementTexts_eq_exposedPieces_iff (line : CString) :
    statementTexts .source line = exposedPieces line ↔
      ∀ text, skipComments line = some text → SemicolonsExposed text ∧ FitsLineBuffers text := by
  unfold statementTexts exposedPieces
  cases skipComments line with
  | none => simp
  | some text =>
      simp only [Option.some.injEq, forall_eq']
      have hsub : ∀ letter ∈ argLexicon.marks .start text,
          isExposedSemicolon letter = true → isSemicolon letter.1 = true := by
        intro letter _ hexposed
        rw [isExposedSemicolon, Bool.and_eq_true] at hexposed
        exact hexposed.1
      constructor
      · intro htexts
        have hfits : FitsLineBuffers text := by
          apply fitsLineBuffers_of_span
          rw [htexts, span_exposed]
        have hwhole : text.splitOnP isSemicolon =
            ((argLexicon.marks .start text).splitOnP isExposedSemicolon).map
              (List.map Prod.fst) := by
          rw [← htexts]
          exact hfits.pieces_eq.symm
        have hlength := congrArg List.length hwhole
        rw [← marks_splitOnP_isSemicolon, List.length_map, List.length_map] at hlength
        have hsame := eq_of_length_splitOnP_eq hsub hlength.symm
        refine ⟨fun letter hletter hsemicolon => ?_, hfits⟩
        have hexposed := (hsame letter hletter).trans hsemicolon
        simpa [isExposedSemicolon, hsemicolon] using hexposed
      · rintro ⟨hexposed, hfits⟩
        have hsame : ∀ letter ∈ argLexicon.marks .start text,
            isExposedSemicolon letter = isSemicolon letter.1 := by
          intro letter hletter
          unfold isExposedSemicolon
          cases hsemicolon : isSemicolon letter.1 with
          | false => rfl
          | true => simp [hexposed letter hletter hsemicolon]
        rw [splitOnP_congr hsame, marks_splitOnP_isSemicolon]
        exact hfits.pieces_eq

/-- **When a line runs the pieces between exposed semicolons.** It runs its statement texts,
until one does not return 0; and these are the pieces between exposed semicolons exactly
when no `;` is quoted or escaped and nothing is cut. -/
theorem parseLine_runs_exposedPieces_iff (parser : Parser σ) (line : CString) (world : World σ) :
    (parseLine .source parser line).result world =
        (executeAll .source parser (statementTexts .source line)).result world ∧
      (statementTexts .source line = exposedPieces line ↔
        ∀ text, skipComments line = some text → SemicolonsExposed text ∧ FitsLineBuffers text) :=
  ⟨result_parseLine .source parser line world, statementTexts_eq_exposedPieces_iff line⟩

/-- The quoted `;` of `echo "a;b"` ends a statement. -/
theorem statementTexts_quoted_semicolon :
    statementTexts .source (cstr "echo \"a;b\"") ≠ exposedPieces (cstr "echo \"a;b\"") := by
  decide +kernel

end BasC
