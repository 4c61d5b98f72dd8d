/-
# Lines of a text

`str_getline` reads a stream up to and including the next newline, and returns the length of
what it has read, which is 0 only at the end. Reading until then takes a text apart into its
lines.
-/

import BasC.Base.CString

namespace BasC

open CChar

/-- `while (*p == ' ' || *p == '\t') p++`. -/
def skipBlanks (p : CString) : CString := p.dropWhile fun c => c = blank || c = tab

/-- The text behind a word that it begins with, as in `strncmp(p, word, n) == 0`. -/
def dropWord (word p : CString) : Option CString :=
  if word.isPrefixOf p then some (p.drop word.length) else none

theorem skipBlanks_append {blanks : CString} (hblanks : ∀ c ∈ blanks, c = blank ∨ c = tab)
    (p : CString) : skipBlanks (blanks ++ p) = skipBlanks p :=
  List.dropWhile_append_of_pos fun c hc => by simpa using hblanks c hc

/-- What is skipped are blanks. -/
theorem exists_blanks_append_skipBlanks (p : CString) :
    ∃ blanks, p = blanks ++ skipBlanks p ∧ ∀ c ∈ blanks, c = blank ∨ c = tab :=
  ⟨p.takeWhile fun c => c = blank || c = tab, List.takeWhile_append_dropWhile.symm,
    fun c hc => by simpa using List.mem_takeWhile_imp hc⟩

theorem skipBlanks_eq_self {p : CString} (hp : ∀ c ∈ p.head?, c ≠ blank ∧ c ≠ tab) :
    skipBlanks p = p := by
  cases p with
  | nil => rfl
  | cons c p =>
      obtain ⟨hblank, htab⟩ := hp c rfl
      exact List.dropWhile_cons_of_neg (by simp [hblank, htab])

theorem dropWord_append (word p : CString) : dropWord word (word ++ p) = some p := by
  rw [dropWord, if_pos (List.isPrefixOf_iff_prefix.mpr (List.prefix_append word p)),
    List.drop_left]

theorem dropWord_eq_none {word p : CString} (hp : ¬ word <+: p) : dropWord word p = none :=
  if_neg fun hword => hp (List.isPrefixOf_iff_prefix.mp hword)

/-- One call of `str_getline`: the line, with its newline, and what is left of the stream. -/
def strGetline (stream : CString) : CString × CString :=
  match stream.dropWhile (· ≠ newline) with
  | [] => (stream, [])
  | c :: rest => (stream.takeWhile (· ≠ newline) ++ [c], rest)

theorem strGetline_append (stream : CString) :
    (strGetline stream).1 ++ (strGetline stream).2 = stream := by
  have hsplit := List.takeWhile_append_dropWhile (p := (· ≠ newline)) (l := stream)
  rw [strGetline]
  split
  · exact List.append_nil _
  · rename_i c rest hdrop
    rw [hdrop] at hsplit
    rw [List.append_assoc, List.singleton_append, hsplit]

theorem strGetline_ne_nil {stream : CString} (hstream : stream ≠ []) :
    (strGetline stream).1 ≠ [] := by
  rw [strGetline]
  split
  · exact hstream
  · simp

/-- What a call leaves is shorter than what it found. -/
theorem strGetline_lt {stream : CString} (hstream : stream ≠ []) :
    (strGetline stream).2.length < stream.length := by
  have hlength := congrArg List.length (strGetline_append stream)
  have hpos := List.length_pos_of_ne_nil (strGetline_ne_nil hstream)
  rw [List.length_append] at hlength
  omega

/-- The lines that `while (str_getline(&line, &cap, in) > 0)` goes through. -/
def getlines (stream : CString) : List CString :=
  if _hstream : stream = [] then []
  else (strGetline stream).1 :: getlines (strGetline stream).2
termination_by stream.length
decreasing_by exact strGetline_lt _hstream

theorem getlines_nil : getlines [] = [] := by
  rw [getlines, dif_pos rfl]

/-- A line has a newline at its end only. -/
theorem newline_notMem_dropLast {stream line : CString} (hline : line ∈ getlines stream) :
    newline ∉ line.dropLast := by
  fun_induction getlines stream with
  | case1 => cases hline
  | case2 stream hstream ih =>
      rcases List.mem_cons.mp hline with rfl | hrest
      · rw [strGetline]
        split
        · rename_i hnone
          intro hmem
          have hall := List.dropWhile_eq_nil_iff.mp hnone _ (List.mem_of_mem_dropLast hmem)
          simp at hall
        · rw [List.dropLast_concat]
          intro hmem
          simpa using List.mem_takeWhile_imp hmem
      · exact ih hrest

theorem strGetline_line {line : CString} (hline : newline ∉ line) (rest : CString) :
    strGetline (line ++ newline :: rest) = (line ++ [newline], rest) := by
  have hall : ∀ c ∈ line, (decide (c ≠ newline)) = true := by
    rintro c hc
    exact decide_eq_true fun heq => hline (heq ▸ hc)
  rw [strGetline, List.dropWhile_append_of_pos hall, List.takeWhile_append_of_pos hall]
  simp

theorem getlines_line {line : CString} (hline : newline ∉ line) (rest : CString) :
    getlines (line ++ newline :: rest) = (line ++ [newline]) :: getlines rest := by
  rw [getlines, dif_neg (by simp), strGetline_line hline]

/-- **Lines that were written one after the other are read back.** -/
theorem getlines_flatMap {lines : List CString} (hlines : ∀ line ∈ lines, newline ∉ line) :
    getlines (lines.flatMap fun line => line ++ [newline]) =
      lines.map fun line => line ++ [newline] := by
  induction lines with
  | nil => exact getlines_nil
  | cons line lines ih =>
      rw [List.flatMap_cons, List.append_assoc, List.singleton_append,
        getlines_line (hlines line List.mem_cons_self),
        ih fun line' hmem => hlines line' (List.mem_cons_of_mem _ hmem), List.map_cons]

end BasC
