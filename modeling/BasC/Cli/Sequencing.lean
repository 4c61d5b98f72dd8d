/-
# Statements in sequence

A `;` between two lines makes one line of them. The line runs as the first line and, when
that returns 0, as the second. Leading white space is skipped for the first line before
the cut and for the second by `trim_whitespace`, and a comment at the start of either
would swallow what is behind it only in part.

The copies into the fixed buffers differ, so the runs are compared by what is seen from
outside.
-/

import BasC.Cli.Statements

namespace BasC

open CChar Lib

variable {σ : Type}

/-- **Statements in a row** are the first ones and, if all of these return 0, the others. -/
theorem executeAll_append (limits : Limits) (parser : Parser σ) (first second : List CString) :
    executeAll limits parser (first ++ second) = (do
      let result ← executeAll limits parser first
      if result ≠ 0 then pure result else executeAll limits parser second) := by
  induction first with
  | nil => rfl
  | cons statement first ih =>
      rw [List.cons_append, executeAll, executeAll, Traced.bind_assoc]
      congr 1
      funext result
      by_cases hresult : result ≠ 0
      · rw [if_pos hresult, if_pos hresult, Traced.pure_bind, if_pos hresult]
      · rw [if_neg hresult, if_neg hresult, ih]

theorem isspace_semicolon : isspace semicolon = false := by decide

theorem not_isSemicolon_of_isspace {c : CChar} (hspace : isspace c = true) :
    isSemicolon c = false := by
  simp only [isSemicolon, decide_eq_false_iff_not]
  rintro rfl
  rw [isspace_semicolon] at hspace
  cases hspace

/-- White space in front of a text belongs to its first piece. -/
theorem splitOnP_spaces_append {lead : CString} (hlead : ∀ c ∈ lead, isspace c = true)
    (text : CString) :
    (lead ++ text).splitOnP isSemicolon =
      (text.splitOnP isSemicolon).modifyHead (lead ++ ·) := by
  induction lead with
  | nil =>
      obtain ⟨piece, pieces, hpieces⟩ :=
        List.exists_cons_of_ne_nil (List.splitOnP_ne_nil isSemicolon text)
      rw [List.nil_append, hpieces]
      rfl
  | cons c lead ih =>
      rw [List.forall_mem_cons] at hlead
      rw [List.cons_append, List.splitOnP_cons_eq_if_modifyHead,
        not_isSemicolon_of_isspace hlead.1, if_neg Bool.false_ne_true, ih hlead.2,
        List.modifyHead_modifyHead]
      rfl

/-- A statement is executed without the white space around it. -/
theorem executeStatement_congr {statement statement' : CString}
    (htrim : trimWhitespace statement = trimWhitespace statement') (limits : Limits)
    (parser : Parser σ) :
    executeStatement limits parser statement = executeStatement limits parser statement' := by
  unfold executeStatement prepareStatement
  rw [htrim]

/-- White space in front of the first statement makes no difference. -/
theorem executeAll_splitOnP_skipSpaces (limits : Limits) (parser : Parser σ) (text : CString) :
    executeAll limits parser ((skipSpaces text).splitOnP isSemicolon) =
      executeAll limits parser (text.splitOnP isSemicolon) := by
  obtain ⟨lead, htext, hlead⟩ := exists_spaces_append_skipSpaces text
  obtain ⟨piece, pieces, hpieces⟩ :=
    List.exists_cons_of_ne_nil (List.splitOnP_ne_nil isSemicolon (skipSpaces text))
  have hsplit : text.splitOnP isSemicolon = (lead ++ piece) :: pieces := by
    rw [htext, splitOnP_spaces_append hlead, hpieces]
    rfl
  have htrim : trimWhitespace piece = trimWhitespace (lead ++ piece) := by
    unfold trimWhitespace
    rw [skipSpaces_spaces_append hlead]
  rw [hsplit, hpieces, executeAll, executeAll, executeStatement_congr htrim]

/-- A `;` behind a text does not make a comment of it. -/
theorem head?_skipSpaces_semicolon_iff (text rest : CString) :
    (skipSpaces (text ++ semicolon :: rest)).head? = some hash ↔
      (skipSpaces text).head? = some hash := by
  rw [skipSpaces_append_cons text isspace_semicolon]
  cases skipSpaces text with
  | nil => exact iff_of_false (fun hhead => absurd (Option.some.inj hhead) (by decide)) (by simp)
  | cons c skipped => rfl

/-- The pieces of a text that fits the statement buffer fit it as well. -/
theorem map_source_fit_splitOnP {text : CString}
    (hfits : text.length < Buffer.singleStatement.size) :
    (text.splitOnP isSemicolon).map (Limits.source.fit .singleStatement) =
      text.splitOnP isSemicolon := by
  have hspan := span_splitOnP isSemicolon text
  have hpieces : ∀ piece ∈ text.splitOnP isSemicolon,
      Limits.source.fit .singleStatement piece = piece := by
    intro piece hpiece
    have hle : piece.length + 1 ≤ span (text.splitOnP isSemicolon) := length_lt_span hpiece
    exact source_fit_eq_self (by omega)
  calc
    _ = (text.splitOnP isSemicolon).map id := List.map_congr_left hpieces
    _ = _ := List.map_id _

theorem length_skipSpaces_le (text : CString) : (skipSpaces text).length ≤ text.length :=
  (List.dropWhile_suffix isspace).length_le

/-- A line that is no comment and fits the statement buffer runs all its pieces. -/
theorem statementTexts_of_fits {line : CString} (hcomment : (skipSpaces line).head? ≠ some hash)
    (hfits : (skipSpaces line).length < Buffer.singleStatement.size) :
    statementTexts .source line = (skipSpaces line).splitOnP isSemicolon := by
  have hline : (skipSpaces line).length < Buffer.lineCopy.size := hfits.trans (by decide)
  have hskip : skipComments line = some (skipSpaces line) := if_neg hcomment
  unfold statementTexts
  rw [hskip]
  simp only
  rw [source_fit_eq_self hline, map_source_fit_splitOnP hfits]

/-- **Statements run left to right and stop at the first failure.** Two lines joined by a
`;` call, report and return what the first line does and, only if that returns 0, what the
second does then. -/
theorem observed_parseLine_semicolon (parser : Parser σ) (line1 line2 : CString)
    (hfirst : (skipSpaces line1).head? ≠ some hash)
    (hsecond : (skipSpaces line2).head? ≠ some hash)
    (hlength : line1.length + line2.length + 1 < 1024) :
    observed (parseLine .source parser (line1 ++ semicolon :: line2)) =
      observed (do
        let result ← parseLine .source parser line1
        if result ≠ 0 then pure result else parseLine .source parser line2) := by
  have hsize : Buffer.singleStatement.size = 1024 := rfl
  have hle1 := length_skipSpaces_le line1
  have hle2 := length_skipSpaces_le line2
  have hjoined : skipSpaces (line1 ++ semicolon :: line2) =
      skipSpaces line1 ++ semicolon :: line2 :=
    skipSpaces_append_cons line1 isspace_semicolon line2
  have hcomment : (skipSpaces (line1 ++ semicolon :: line2)).head? ≠ some hash :=
    (head?_skipSpaces_semicolon_iff line1 line2).not.mpr hfirst
  have htexts : statementTexts .source (line1 ++ semicolon :: line2) =
      (skipSpaces line1).splitOnP isSemicolon ++ line2.splitOnP isSemicolon := by
    have hfits : (skipSpaces line1 ++ semicolon :: line2).length < Buffer.singleStatement.size := by
      rw [List.length_append, List.length_cons]
      omega
    rw [statementTexts_of_fits hcomment (by rwa [hjoined]), hjoined]
    exact List.splitOnP_append_cons _ _ rfl
  have htexts1 := statementTexts_of_fits hfirst (by omega)
  have htexts2 := statementTexts_of_fits hsecond (by omega)
  have hrest : observed (executeAll .source parser (line2.splitOnP isSemicolon)) =
      observed (parseLine .source parser line2) := by
    rw [observed_parseLine, htexts2, executeAll_splitOnP_skipSpaces]
  rw [observed_parseLine, htexts, executeAll_append, observed_bind, observed_bind,
    ← htexts1, ← observed_parseLine]
  congr 1
  funext result
  split
  · rfl
  · exact hrest

/-- `a` fails, so the `b` behind the `;` is not run. -/
theorem observed_parseLine_semicolon_example :
    ((skipSpaces (cstr "a")).head? ≠ some hash ∧ (skipSpaces (cstr " b")).head? ≠ some hash ∧
      (cstr "a").length + (cstr " b").length + 1 < 1024) ∧
    observed (parseLine .source bareParser (cstr "a" ++ semicolon :: cstr " b")) =
      observed (do
        let result ← parseLine .source bareParser (cstr "a")
        if result ≠ 0 then pure result else parseLine .source bareParser (cstr " b")) :=
  ⟨by decide +kernel, observed_parseLine_semicolon bareParser (cstr "a") (cstr " b")
    (by decide +kernel) (by decide +kernel) (by decide +kernel)⟩

end BasC
