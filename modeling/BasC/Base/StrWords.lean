/-
# Words and lines of a string, cut in place

`readtok` and `strtok_eol` take a string apart in place: each call skips what is in front of the
next piece, finds its end, writes a NUL there and goes on behind it. They differ in what they
skip and where they stop. When all calls have been made, the pointers that they have returned
are still at their pieces, and nothing but the ends of pieces has been overwritten.
-/

import BasC.Base.Str
import BasC.Base.StrTokens

namespace BasC

open CChar

/-- The characters that are skipped in front of a piece, and those that end it. -/
structure Delimiters where
  skip : CChar → Bool
  stop : CChar → Bool

/-- One call: the piece, where the next call begins, and the memory; `none` is `NULL`. -/
def cutPiece (d : Delimiters) (memory : Memory) (head : CPointer) :
    Option (CPointer × CPointer × Memory) :=
  let tok := head.add ((memory.read head).takeWhile d.skip).length
  match memory.read tok with
  | [] => none
  | _ :: _ =>
      let stop := tok.add ((memory.read tok).takeWhile fun c => !d.stop c).length
      some (tok, memory.cut stop)

/-- Words end at white space. -/
def wordEnds : Delimiters := ⟨isspace, isspace⟩

/-- Lines end at newlines, and may be empty. -/
def lineEnds : Delimiters := ⟨fun _ => false, fun c => c = newline⟩

/-- `readtok`. -/
def readtok (memory : Memory) (endp : CPointer) : Option (CPointer × CPointer × Memory) :=
  cutPiece wordEnds memory endp

/-- `strtok_eol`. -/
def strtokEol (memory : Memory) (head : CPointer) : Option (CPointer × CPointer × Memory) :=
  cutPiece lineEnds memory head

/-- Calls until the first `NULL`, in no more than a number of calls: what they return, and the
memory behind them. -/
def callAll (next : Memory → CPointer → Option (CPointer × CPointer × Memory)) :
    ℕ → Memory → CPointer → Option (List CPointer × Memory)
  | 0, _, _ => none
  | calls + 1, memory, head =>
      match next memory head with
      | none => some ([], memory)
      | some (tok, endp, memory') =>
          (callAll next calls memory' endp).map fun out => (tok :: out.1, out.2)

/-- The next piece of a text, and the text behind its end. -/
def nextPiece (d : Delimiters) (text : CString) : Option (CString × CString) :=
  match text.dropWhile d.skip with
  | [] => none
  | c :: rest =>
      some ((c :: rest).takeWhile fun c => !d.stop c,
        ((c :: rest).dropWhile fun c => !d.stop c).drop 1)

theorem nextPiece_lt {d : Delimiters} {text piece rest : CString}
    (hnext : nextPiece d text = some (piece, rest)) : rest.length < text.length := by
  have hskip := (List.dropWhile_suffix d.skip (l := text)).length_le
  unfold nextPiece at hnext
  split at hnext
  · cases hnext
  · rename_i c more htext
    obtain ⟨-, rfl⟩ := Prod.mk.inj (Option.some.inj hnext)
    have hstop := (List.dropWhile_suffix (fun c => !d.stop c) (l := c :: more)).length_le
    rw [htext, List.length_cons] at hskip
    rw [List.length_cons] at hstop
    rw [List.length_drop]
    omega

/-- The pieces of a text. -/
def pieces (d : Delimiters) (text : CString) : List CString :=
  match _hnext : nextPiece d text with
  | none => []
  | some (piece, rest) => piece :: pieces d rest
termination_by text.length
decreasing_by exact nextPiece_lt _hnext

theorem pieces_of_none {d : Delimiters} {text : CString} (hnext : nextPiece d text = none) :
    pieces d text = [] := by
  rw [pieces]
  split
  · rfl
  · rename_i hsome
    rw [hnext] at hsome
    cases hsome

theorem pieces_of_some {d : Delimiters} {text piece rest : CString}
    (hnext : nextPiece d text = some (piece, rest)) :
    pieces d text = piece :: pieces d rest := by
  rw [pieces]
  split
  · rename_i hnone
    rw [hnext] at hnone
    cases hnone
  · rename_i piece' rest' hsome
    rw [hnext] at hsome
    obtain ⟨rfl, rfl⟩ := Prod.mk.inj (Option.some.inj hsome)
    rfl

/-- The byte at a place. -/
def Memory.byteAt (memory : Memory) (object offset : ℕ) : Option UInt8 := (memory object)[offset]?

/-- Nothing changes but ends of pieces, which become NUL: characters with the property in the
text at `head`. -/
def Memory.CutAt (test : CChar → Bool) (head : CPointer) (memory memory' : Memory) : Prop :=
  ∀ object offset, memory'.byteAt object offset = memory.byteAt object offset ∨
    ∃ before c after, memory.read head = before ++ c :: after ∧ test c = true ∧
      object = head.object ∧ offset = head.offset + before.length ∧
      memory'.byteAt object offset = some 0

theorem Memory.CutAt.refl (test : CChar → Bool) (head : CPointer) (memory : Memory) :
    memory.CutAt test head memory :=
  fun _ _ => .inl rfl

/-- A string depends on its bytes and on the NUL behind them. -/
theorem textOf_congr {bytes bytes' : List UInt8} {text : CString} (htext : textOf bytes = text)
    (hzero : bytes[text.length]? = some 0)
    (hsame : ∀ i ≤ text.length, bytes'[i]? = bytes[i]?) : textOf bytes' = text := by
  induction text generalizing bytes bytes' with
  | nil =>
      have hfirst := (hsame 0 le_rfl).trans hzero
      cases bytes' with
      | nil => rfl
      | cons byte bytes' =>
          obtain rfl : byte = 0 := Option.some.inj hfirst
          rfl
  | cons c text ih =>
      cases bytes with
      | nil => cases htext
      | cons byte bytes =>
          obtain ⟨rfl, hmore⟩ := textOf_cons_eq htext
          cases bytes' with
          | nil =>
              have hfirst := hsame 0 (Nat.zero_le _)
              cases hfirst
          | cons byte' bytes' =>
              have hfirst := hsame 0 (Nat.zero_le _)
              obtain rfl : byte' = c.1 := Option.some.inj hfirst
              have hbyte : CChar.ofByte? c.1 = some c := dif_pos c.2
              have hrest := ih hmore (by simpa using hzero) fun i hi => by
                simpa using hsame (i + 1) (by simpa using hi)
              rw [textOf]
              simp only [hbyte, hrest]

namespace Memory

variable {memory memory' memory'' : Memory} {head : CPointer} {test : CChar → Bool}

theorem byteAt_of_read {before after : CString} {c : CChar}
    (hread : memory.read head = before ++ c :: after) :
    memory.byteAt head.object (head.offset + before.length) = some c.1 := by
  rw [byteAt, ← List.getElem?_drop]
  exact textOf_getElem? hread

/-- Writing a NUL over a character of the text. -/
theorem cutAt_write {before after : CString} {c : CChar}
    (hread : memory.read head = before ++ c :: after) (hc : test c = true) :
    memory.CutAt test head (memory.write (head.add before.length) 0) := by
  have hbyte := byteAt_of_read hread
  intro object offset
  by_cases hobject : object = head.object
  · subst hobject
    by_cases hoffset : offset = head.offset + before.length
    · subst hoffset
      refine .inr ⟨before, c, after, hread, hc, rfl, rfl, ?_⟩
      obtain ⟨hbound, -⟩ := List.getElem?_eq_some_iff.mp hbyte
      simp [byteAt, write, CPointer.add, hbound]
    · refine .inl ?_
      simp [byteAt, write, CPointer.add, List.getElem?_set_ne (Ne.symm hoffset)]
  · refine .inl ?_
    simp [byteAt, write, CPointer.add, Function.update_of_ne hobject]

/-- Cuts in the text, and then cuts further on. -/
theorem CutAt.trans {front rest : CString} (hread : memory.read head = front ++ rest)
    (hrest : memory'.read (head.add front.length) = rest) (hfirst : memory.CutAt test head memory')
    (hsecond : memory'.CutAt test (head.add front.length) memory'') :
    memory.CutAt test head memory'' := by
  intro object offset
  rcases hsecond object offset with hsame | ⟨before, c, after, htext, hc, hobject, hoffset, hzero⟩
  · rw [hsame]
    exact hfirst object offset
  · refine .inr ⟨front ++ before, c, after, ?_, hc, hobject, ?_, hzero⟩
    · rw [hread, ← hrest, htext, List.append_assoc]
    · rw [hoffset, List.length_append, CPointer.add, Nat.add_assoc]

/-- Cuts behind the NUL of a string leave it alone. -/
theorem CutAt.read_eq {tok : CPointer} (hcut : memory.CutAt test head memory')
    (hzero : memory.byteAt tok.object (tok.offset + (memory.read tok).length) = some 0)
    (hbehind : tok.object = head.object → tok.offset + (memory.read tok).length < head.offset) :
    memory'.read tok = memory.read tok := by
  refine @textOf_congr ((memory tok.object).drop tok.offset) _ _ rfl ?_ fun i hi => ?_
  · rw [List.getElem?_drop]
    exact hzero
  · rw [List.getElem?_drop, List.getElem?_drop]
    rcases hcut tok.object (tok.offset + i) with
      hsame | ⟨before, c, after, -, -, hobject, hoffset, -⟩
    · exact hsame
    · have hlt := hbehind hobject
      have hread : (memory.read tok).length =
        (textOf ((memory tok.object).drop tok.offset)).length := rfl
      omega

/-- Where there is no text, there is nothing to cut. -/
theorem CutAt.eq_of_nil (hcut : memory.CutAt test head memory') (hread : memory.read head = []) :
    memory' = memory := by
  funext object
  refine List.ext_getElem? fun offset => ?_
  rcases hcut object offset with hsame | ⟨before, c, after, htext, -⟩
  · exact hsame
  · simp [hread] at htext

end Memory

/-! ## The calls in memory -/

/-- What a call leaves: the piece is at `tok`, the rest of the text at `endp`, and the piece is
ended by a NUL in front of `endp`, or by the end of the text. -/
structure CutsPiece (d : Delimiters) (memory : Memory) (head : CPointer) (piece rest : CString)
    (tok endp : CPointer) (memory' : Memory) : Prop where
  tok_object : tok.object = head.object
  read_tok : memory'.read tok = piece
  read_endp : memory'.read endp = rest
  split : ∃ front, memory.read head = front ++ rest ∧ endp = head.add front.length
  cut : memory.CutAt d.stop head memory'
  ended : rest = [] ∨ (memory'.byteAt tok.object (tok.offset + piece.length) = some 0 ∧
    tok.offset + piece.length < endp.offset)

/-- **A call does the step on the text.** -/
theorem cutPiece_eq (d : Delimiters) (memory : Memory) (head : CPointer) :
    match nextPiece d (memory.read head) with
    | none => cutPiece d memory head = none
    | some (piece, rest) => ∃ tok endp memory', cutPiece d memory head = some (tok, endp, memory') ∧
        CutsPiece d memory head piece rest tok endp memory' := by
  have htok := memory.read_takeWhile head d.skip
  have hskip := (List.takeWhile_append_dropWhile (p := d.skip) (l := memory.read head)).symm
  unfold nextPiece cutPiece
  generalize (memory.read head).takeWhile d.skip = gap at htok hskip
  dsimp only
  rw [htok]
  cases htext : (memory.read head).dropWhile d.skip with
  | nil => rfl
  | cons first more =>
      rw [htext] at htok hskip
      dsimp only
      have hword := (List.takeWhile_append_dropWhile
        (p := fun c => !d.stop c) (l := first :: more)).symm
      have hnot := List.head?_dropWhile_not (fun c => !d.stop c) (first :: more)
      generalize (first :: more).takeWhile (fun c => !d.stop c) = piece at hword ⊢
      generalize (first :: more).dropWhile (fun c => !d.stop c) = behind at hword hnot ⊢
      have hread : memory.read (head.add gap.length) = piece ++ behind := htok.trans hword
      have hstop := Memory.read_add hread
      have hcut := Memory.read_cut hread
      refine ⟨_, _, _, rfl, rfl, hcut.1, hcut.2, ?_, ?_, ?_⟩
      · cases behind with
        | nil =>
            refine ⟨gap ++ piece, ?_, ?_⟩
            · rw [hskip, hword, List.drop_nil, List.append_nil, List.append_nil]
            · simp only [hstop]
              rw [CPointer.add_add, List.length_append]
        | cons c rest =>
            refine ⟨gap ++ piece ++ [c], ?_, ?_⟩
            · rw [hskip, hword]
              simp
            · simp only [hstop]
              rw [CPointer.add_add, CPointer.add_add]
              simp
      · cases behind with
        | nil =>
            simp only [hstop]
            exact Memory.CutAt.refl _ _ _
        | cons c rest =>
            have hwhole : memory.read head = (gap ++ piece) ++ c :: rest := by
              rw [hskip, hword, List.append_assoc]
            have hc : d.stop c = true := by simpa using hnot
            have hwrite := Memory.cutAt_write hwhole hc
            simp only [hstop]
            rw [CPointer.add_add, ← List.length_append]
            exact hwrite
      · cases behind with
        | nil => exact .inl rfl
        | cons c rest =>
            refine .inr ?_
            have hbyte := Memory.byteAt_of_read hread
            obtain ⟨hbound, -⟩ := List.getElem?_eq_some_iff.mp hbyte
            simp only [hstop]
            constructor
            · simp only [Memory.byteAt, Memory.write, CPointer.add,
                Function.update_self] at hbound ⊢
              rw [List.getElem?_set_self hbound]
            · simp [CPointer.add]

/-- **The pieces stay where the calls have found them.** The calls come to an end, all pointers
returned are at their pieces when they have, and only ends of pieces have been overwritten. -/
theorem callAll_cutPiece (d : Delimiters) {calls : ℕ} {memory : Memory} {head : CPointer}
    (hcalls : (memory.read head).length < calls) :
    ∃ toks memory', callAll (cutPiece d) calls memory head = some (toks, memory') ∧
      toks.map memory'.read = pieces d (memory.read head) ∧ memory.CutAt d.stop head memory' := by
  induction calls generalizing memory head with
  | zero => cases hcalls
  | succ calls ih =>
      have hcall := cutPiece_eq d memory head
      rw [callAll]
      cases hnext : nextPiece d (memory.read head) with
      | none =>
          rw [hnext] at hcall
          dsimp only at hcall
          rw [hcall, pieces_of_none hnext]
          exact ⟨[], memory, rfl, rfl, Memory.CutAt.refl _ _ _⟩
      | some next =>
          obtain ⟨piece, rest⟩ := next
          rw [hnext] at hcall
          obtain ⟨tok, endp, memory₁, hcall, hobject, hpiece, hrest, hsplit, hcut, hended⟩ := hcall
          obtain ⟨front, hfront, rfl⟩ := hsplit
          have hshorter := nextPiece_lt hnext
          obtain ⟨toks, memory', hrun, htoks, hlater⟩ :=
            @ih memory₁ (head.add front.length) (by rw [hrest]; omega)
          rw [hcall, pieces_of_some hnext]
          dsimp only
          rw [hrun, Option.map_some]
          refine ⟨tok :: toks, memory', rfl, ?_, hcut.trans hfront hrest hlater⟩
          rw [List.map_cons, htoks, hrest]
          congr 1
          rcases hended with rfl | ⟨hzero, hbehind⟩
          · rw [hlater.eq_of_nil hrest, hpiece]
          · rw [← hpiece] at hzero hbehind
            rw [hlater.read_eq hzero fun _ => hbehind, hpiece]

theorem pieces_nil (d : Delimiters) : pieces d [] = [] := pieces_of_none rfl

/-- What is skipped adds no piece. -/
theorem pieces_skip {d : Delimiters} {gap : CString} (hgap : ∀ c ∈ gap, d.skip c = true)
    (text : CString) : pieces d (gap ++ text) = pieces d text := by
  have hnext : nextPiece d (gap ++ text) = nextPiece d text := by
    rw [nextPiece, List.dropWhile_append_of_pos hgap, ← nextPiece]
  cases htext : nextPiece d text with
  | none => rw [pieces_of_none htext, pieces_of_none (hnext.trans htext)]
  | some next => rw [pieces_of_some htext, pieces_of_some (hnext.trans htext)]

/-- A text that does not begin with what is skipped begins with a piece. -/
theorem pieces_cons {d : Delimiters} {c : CChar} (hc : d.skip c = false) (text : CString) :
    pieces d (c :: text) = (c :: text).takeWhile (fun c => !d.stop c) ::
      pieces d (((c :: text).dropWhile fun c => !d.stop c).drop 1) := by
  refine pieces_of_some ?_
  rw [nextPiece, List.dropWhile_cons_of_neg (by simp [hc])]

/-- The words of a text: what is left of it between white space. -/
def words (text : CString) : List CString := (text.splitOnP isspace).filter fun word => word ≠ []

theorem words_space {c : CChar} (hc : isspace c = true) (text : CString) :
    words (c :: text) = words text := by
  have hnone : ∀ c ∈ ([] : CString), isspace c = false := by simp
  have hsplit := List.splitOnP_append_cons_of_forall_mem hnone c hc text
  rw [List.nil_append] at hsplit
  rw [words, hsplit, words]
  rfl

/-- **`readtok` finds the words.** -/
theorem pieces_wordEnds (text : CString) : pieces wordEnds text = words text := by
  induction hlength : text.length using Nat.strong_induction_on generalizing text with
  | _ length ih =>
      cases text with
      | nil => exact pieces_nil _
      | cons c text =>
          rw [List.length_cons] at hlength
          cases hc : isspace c with
          | true =>
              have hgap : ∀ d ∈ [c], wordEnds.skip d = true := by simpa [wordEnds] using hc
              have hskip := pieces_skip hgap text
              rw [List.singleton_append] at hskip
              rw [hskip, words_space hc, ih _ (by omega) text rfl]
          | false =>
              rw [pieces_cons hc]
              have hword := (List.takeWhile_append_dropWhile
                (p := fun c => !wordEnds.stop c) (l := c :: text)).symm
              have hnot := List.head?_dropWhile_not (fun c => !wordEnds.stop c) (c :: text)
              have hlt :=
                (List.dropWhile_suffix (fun c => !wordEnds.stop c) (l := c :: text)).length_le
              have hne : (c :: text).takeWhile (fun c => !wordEnds.stop c) ≠ [] := by
                rw [List.takeWhile_cons_of_pos (by simp [wordEnds, hc])]
                exact List.cons_ne_nil _ _
              have hinside : ∀ d ∈ (c :: text).takeWhile (fun c => !wordEnds.stop c),
                  isspace d = false := fun d hd => by
                simpa [wordEnds] using List.mem_takeWhile_imp hd
              generalize (c :: text).takeWhile (fun c => !wordEnds.stop c) = word at *
              cases hbehind : (c :: text).dropWhile fun c => !wordEnds.stop c with
              | nil =>
                  rw [hbehind, List.append_nil] at hword
                  rw [hword, words, List.splitOnP_eq_singleton hinside, List.drop_nil, pieces_nil]
                  simp [hne]
              | cons d rest =>
                  rw [hbehind] at hword hnot hlt
                  rw [List.length_cons, List.length_cons] at hlt
                  have hd : isspace d = true := by simpa [wordEnds] using hnot
                  rw [hword, words,
                    List.splitOnP_append_cons_of_forall_mem hinside d hd rest, List.drop_one,
                    List.tail_cons, ih _ (by omega) rest rfl, words]
                  simp [hne]

/-- **`strtok_eol` finds the lines that `str_getline` reads**, without their newlines. -/
theorem pieces_lineEnds (text : CString) :
    pieces lineEnds text = (getlines text).map fun line => line.takeWhile (· ≠ newline) := by
  fun_induction getlines text with
  | case1 => exact pieces_nil _
  | case2 text htext ih =>
      obtain ⟨c, more, rfl⟩ := List.exists_cons_of_ne_nil htext
      have hstop : (fun c => !lineEnds.stop c) = fun c => decide (c ≠ newline) := by
        funext c
        simp [lineEnds]
      rw [pieces_cons rfl, List.map_cons, ← ih, hstop]
      have hwhole := List.takeWhile_append_dropWhile (p := fun c => decide (c ≠ newline))
        (l := c :: more)
      have hinside : ∀ d ∈ (c :: more).takeWhile (fun c => decide (c ≠ newline)),
          decide (d ≠ newline) = true := fun d hd => by simpa using List.mem_takeWhile_imp hd
      have hnot := List.head?_dropWhile_not (fun c => decide (c ≠ newline)) (c :: more)
      rw [strGetline]
      cases hbehind : (c :: more).dropWhile fun c => decide (c ≠ newline) with
      | nil =>
          rw [hbehind, List.append_nil] at hwhole
          rw [List.drop_nil]
      | cons d rest =>
          rw [hbehind] at hnot
          have hd : d = newline := by simpa using hnot
          subst hd
          rw [List.takeWhile_append_of_pos hinside]
          simp

/-- **`readtok` splits a string into its words.** Called until it returns `NULL`, it returns
pointers at which the words are still found in the end, and only white space of the string has
been overwritten. -/
theorem callAll_readtok (memory : Memory) (head : CPointer) (more : ℕ) :
    ∃ toks memory',
      callAll readtok ((memory.read head).length + 1 + more) memory head = some (toks, memory') ∧
      toks.map memory'.read = words (memory.read head) ∧ memory.CutAt isspace head memory' := by
  obtain ⟨toks, memory', hrun, htoks, hcut⟩ := @callAll_cutPiece wordEnds
    ((memory.read head).length + 1 + more) memory head (by omega)
  exact ⟨toks, memory', hrun, by rw [htoks, pieces_wordEnds], hcut⟩

/-- **`strtok_eol` splits a string into the lines that `str_getline` reads**, and overwrites
nothing but their newlines. -/
theorem callAll_strtokEol (memory : Memory) (head : CPointer) (more : ℕ) :
    ∃ toks memory',
      callAll strtokEol ((memory.read head).length + 1 + more) memory head = some (toks, memory') ∧
      toks.map memory'.read =
        (getlines (memory.read head)).map (fun line => line.takeWhile (· ≠ newline)) ∧
      memory.CutAt (fun c => c = newline) head memory' := by
  obtain ⟨toks, memory', hrun, htoks, hcut⟩ := @callAll_cutPiece lineEnds
    ((memory.read head).length + 1 + more) memory head (by omega)
  exact ⟨toks, memory', hrun, by rw [htoks, pieces_lineEnds], hcut⟩

theorem words_nil : words [] = [] := rfl

/-- A text that begins with a word. -/
theorem words_cons {c : CChar} (hspace : isspace c = false) (text : CString) :
    words (c :: text) = ((c :: text).takeWhile fun c => !isspace c) ::
      words (((c :: text).dropWhile fun c => !isspace c).drop 1) := by
  rw [← pieces_wordEnds, ← pieces_wordEnds]
  exact @pieces_cons wordEnds c hspace text

/-- Without words there is only white space. -/
theorem isspace_of_words_eq_nil {text : CString} (hnone : words text = []) :
    ∀ c ∈ text, isspace c = true := by
  induction text with
  | nil => exact List.forall_mem_nil _
  | cons c text ih =>
      cases hspace : isspace c with
      | true =>
          rw [words_space hspace] at hnone
          exact List.forall_mem_cons.mpr ⟨hspace, ih hnone⟩
      | false =>
          rw [words_cons hspace] at hnone
          cases hnone

/-- A word does not begin with a quote. -/
def Unquoted (word : CString) : Prop := ∀ c ∈ word.head?, ¬ isQuote c

/-- A word begins with a quote and ends with the next one. -/
def Enclosed (word : CString) : Prop :=
  ∃ q body, isQuote q ∧ q ∉ body ∧ word = q :: (body ++ [q])

/-- A word begins with a quote that is not closed. -/
def Opened (word : CString) : Prop := ∃ q body, isQuote q ∧ q ∉ body ∧ word = q :: body

/-- A word is a token as well: it has no quote in front, or, if quotes are kept, it ends with the
next one, or nothing is behind it. -/
def Alone (killq : Bool) (word behind : CString) : Prop :=
  Unquoted word ∨ killq = false ∧ (Enclosed word ∨ Opened word ∧ behind = [])

/-- A text that does not begin with white space: its first word, and what is behind it. -/
structure FirstWord (c : CChar) (text word behind : CString) : Prop where
  split : c :: text = word ++ behind
  inside : ∀ d ∈ word, isspace d = false
  front : word.head? = some c
  behind_head : ∀ d ∈ behind.head?, isspace d = true
  words_eq : words (c :: text) = word :: words (behind.drop 1)

theorem firstWord_takeWhile {c : CChar} (hspace : isspace c = false) (text : CString) :
    FirstWord c text ((c :: text).takeWhile fun c => !isspace c)
      ((c :: text).dropWhile fun c => !isspace c) where
  split := List.takeWhile_append_dropWhile.symm
  inside := fun d hd => by simpa using List.mem_takeWhile_imp hd
  front := by
    rw [List.takeWhile_cons_of_pos (by simp [hspace])]
    rfl
  behind_head := by
    intro d hd
    have hnot := List.head?_dropWhile_not (fun c => !isspace c) (c :: text)
    rw [hd] at hnot
    simpa using hnot
  words_eq := words_cons hspace text

theorem FirstWord.behind_eq_nil {c : CChar} {text word behind : CString}
    (hword : FirstWord c text word behind) (hnone : words (behind.drop 1) = []) :
    (∀ d ∈ (c :: text).getLast?, isspace d = false) ↔ behind = [] := by
  rw [hword.split]
  constructor
  · intro hlast
    cases hbehind : behind with
    | nil => rfl
    | cons d rest =>
        have hspaces : ∀ e ∈ d :: rest, isspace e = true := by
          refine List.forall_mem_cons.mpr ⟨hword.behind_head d (by rw [hbehind]; rfl), ?_⟩
          rw [hbehind] at hnone
          exact isspace_of_words_eq_nil hnone
        have hne : d :: rest ≠ [] := List.cons_ne_nil d rest
        have hend := hlast ((d :: rest).getLast hne) (by
          rw [hbehind, List.getLast?_append_of_ne_nil _ hne, List.getLast?_eq_some_getLast hne]
          rfl)
        rw [hspaces _ (List.getLast_mem hne)] at hend
        cases hend
  · rintro rfl d hd
    rw [List.append_nil] at hd
    exact hword.inside d (List.mem_of_mem_getLast? hd)

/-- Both functions find the same: every word has no quote in front, or, if quotes are kept, ends
with the quote that it begins with; the last one may also be open, if no white space is behind
it. -/
def SplitsAlike (killq : Bool) (text : CString) : Prop :=
  (∀ word ∈ (words text).dropLast, Unquoted word ∨ killq = false ∧ Enclosed word) ∧
    ∀ word ∈ (words text).getLast?, Unquoted word ∨ killq = false ∧
      (Enclosed word ∨ Opened word ∧ ∀ c ∈ text.getLast?, isspace c = false)

theorem splitsAlike_space {c : CChar} (hspace : isspace c = true) (killq : Bool) (text : CString) :
    SplitsAlike killq (c :: text) ↔ SplitsAlike killq text := by
  unfold SplitsAlike
  rw [words_space hspace]
  cases text with
  | nil => simp [words_nil]
  | cons d text => rw [List.getLast?_cons_of_ne_nil (List.cons_ne_nil d text)]

theorem FirstWord.splitsAlike_iff {c : CChar} {text word behind : CString}
    (hword : FirstWord c text word behind) (killq : Bool) :
    SplitsAlike killq (c :: text) ↔
      Alone killq word behind ∧ SplitsAlike killq (behind.drop 1) := by
  unfold SplitsAlike Alone
  rw [hword.words_eq]
  cases hrest : words (behind.drop 1) with
  | nil =>
      simp only [List.dropLast_singleton, List.dropLast_nil, List.getLast?_singleton,
        List.getLast?_nil, Option.mem_def, Option.some.injEq, forall_eq', reduceCtorEq,
        List.not_mem_nil, IsEmpty.forall_iff, implies_true, true_and, and_true]
      have hlast := hword.behind_eq_nil hrest
      simp only [Option.mem_def] at hlast
      rw [hlast]
  | cons next others =>
      have hsome : behind ≠ [] := by
        rintro rfl
        cases hrest
      obtain ⟨d, rest, rfl⟩ := List.exists_cons_of_ne_nil hsome
      have hne : rest ≠ [] := by
        rintro rfl
        cases hrest
      have hlast : (c :: text).getLast? = rest.getLast? := by
        rw [hword.split, List.getLast?_append_of_ne_nil _ (List.cons_ne_nil _ _),
          List.getLast?_cons_of_ne_nil hne]
      rw [List.dropLast_cons_of_ne_nil (List.cons_ne_nil _ _), List.forall_mem_cons, hlast,
        List.getLast?_cons_of_ne_nil (List.cons_ne_nil _ _), List.drop_one, List.tail_cons,
        and_assoc]
      simp

/-! ## The tokens -/

/-- A word without a quote in front is a token. -/
theorem tokens_of_not_quote {c : CChar} (hspace : isspace c = false) (hquote : ¬ isQuote c)
    (killq : Bool) (text : CString) :
    tokens killq (c :: text) = ((c :: text).takeWhile fun c => !isspace c) ::
      tokens killq (((c :: text).dropWhile fun c => !isspace c).drop 1) := by
  have hfirst : ¬ isspace c = true := by simp [hspace]
  refine tokens_of_some ?_
  unfold nextToken
  rw [List.dropWhile_cons_of_neg hfirst]
  simp only [if_neg hquote]

/-- A quote goes up to the next one, or to the end. -/
theorem tokens_of_quote {c : CChar} (hquote : isQuote c) (killq : Bool) (text : CString) :
    (c ∉ text ∧ tokens killq (c :: text) = [if killq then text else c :: text]) ∨
      ∃ body after, text = body ++ c :: after ∧ c ∉ body ∧
        tokens killq (c :: text) = (if killq then body else c :: (body ++ [c])) ::
          tokens killq (if killq then after else after.drop 1) := by
  have hfirst : ¬ isspace c = true := by
    rw [isspace_of_isQuote hquote]
    exact Bool.false_ne_true
  have hwhole := List.takeWhile_append_dropWhile (p := fun ch => decide (ch ≠ c)) (l := text)
  have hbody : c ∉ text.takeWhile fun ch => ch ≠ c := fun hmem => by
    simpa using List.mem_takeWhile_imp hmem
  have hnot := List.head?_dropWhile_not (fun ch => decide (ch ≠ c)) text
  cases hafter : text.dropWhile fun ch => decide (ch ≠ c) with
  | nil =>
      rw [hafter, List.append_nil] at hwhole
      rw [hwhole] at hbody
      have hnext : nextToken killq (c :: text) = some (if killq then text else c :: text, []) := by
        unfold nextToken
        rw [List.dropWhile_cons_of_neg hfirst]
        simp only [if_pos hquote, hafter, hwhole]
      exact .inl ⟨hbody, by rw [tokens_of_some hnext, tokens_nil]⟩
  | cons d after =>
      rw [hafter] at hwhole hnot
      have hd : d = c := by simpa using hnot
      subst hd
      obtain ⟨body, htake⟩ : ∃ body, (text.takeWhile fun ch => decide (ch ≠ d)) = body := ⟨_, rfl⟩
      rw [htake] at hwhole hbody
      have hnext : nextToken killq (d :: text) = some (if killq then (body, after)
          else (d :: (body ++ [d]), after.drop 1)) := by
        unfold nextToken
        rw [List.dropWhile_cons_of_neg hfirst]
        simp only [if_pos hquote, hafter, htake]
        rfl
      refine .inr ⟨body, after, hwhole.symm, hbody, ?_⟩
      cases killq with
      | true => exact tokens_of_some hnext
      | false => exact tokens_of_some hnext

/-- Two texts in front of the same byte, which neither has. -/
theorem append_cons_inj {c : CChar} {body body' after after' : CString} (hbody : c ∉ body)
    (hbody' : c ∉ body') (hsame : body ++ c :: after = body' ++ c :: after') :
    body = body' ∧ after = after' := by
  have hne : ∀ {text : CString}, c ∉ text → ∀ d ∈ text, (decide (d ≠ c)) = true :=
    fun hnot d hd => decide_eq_true fun heq => hnot (heq ▸ hd)
  have htake := congrArg (List.takeWhile fun d => decide (d ≠ c)) hsame
  rw [List.takeWhile_append_of_pos (hne hbody), List.takeWhile_append_of_pos (hne hbody')] at htake
  simp only [List.takeWhile_cons, ne_eq, not_true_eq_false, decide_false, Bool.false_eq_true,
    if_false, List.append_nil] at htake
  subst htake
  exact ⟨rfl, (List.cons.inj (List.append_cancel_left hsame)).2⟩

section Quoted

variable {c : CChar} {text word behind : CString} (hword : FirstWord c text word behind)
  (hquote : isQuote c)

include hword

theorem FirstWord.exists_cons : ∃ more, word = c :: more ∧ text = more ++ behind := by
  have hsplit := hword.split
  have hfront := hword.front
  cases hcons : word with
  | nil =>
      rw [hcons] at hfront
      cases hfront
  | cons d more =>
      rw [hcons] at hfront hsplit
      obtain rfl : d = c := Option.some.inj hfront
      exact ⟨more, rfl, (List.cons.inj hsplit).2⟩

include hquote

theorem FirstWord.not_unquoted : ¬ Unquoted word :=
  fun hunquoted => hunquoted c hword.front hquote

/-- A token without its quote is no word that begins with it. -/
theorem FirstWord.tokens_ne_words : tokens true (c :: text) ≠ words (c :: text) := by
  have hne : ∀ token : CString, c ∉ token → token ≠ word := by
    rintro token hnot rfl
    exact hnot (List.mem_of_mem_head? hword.front)
  rw [hword.words_eq]
  intro heq
  obtain ⟨hopen, htokens⟩ | ⟨body, after, -, hbody, htokens⟩ := tokens_of_quote hquote true text
  · rw [htokens] at heq
    exact hne text hopen (List.cons.inj heq).1
  · rw [htokens] at heq
    exact hne body hbody (List.cons.inj heq).1

/-- A token with its quotes is the word, if no white space is in it and nothing but white space
behind it. -/
theorem FirstWord.tokens_eq_words_of_quote :
    tokens false (c :: text) = words (c :: text) ↔ (Enclosed word ∨ Opened word ∧ behind = []) ∧
      tokens false (behind.drop 1) = words (behind.drop 1) := by
  obtain ⟨more, rfl, rfl⟩ := hword.exists_cons
  rw [hword.words_eq]
  have hclosed {q : CChar} {body rest : CString} (hrest : c :: more = q :: (body ++ rest)) :
      q = c ∧ more = body ++ rest := by
    obtain ⟨rfl, hmore⟩ := List.cons.inj hrest
    exact ⟨rfl, hmore⟩
  obtain ⟨hopen, htokens⟩ | ⟨body, after, hafter, hbody, htokens⟩ :=
    tokens_of_quote hquote false (more ++ behind)
  · rw [htokens, if_neg Bool.false_ne_true, List.cons.injEq]
    constructor
    · rintro ⟨heq, hnone⟩
      have hbehind : behind = [] := by simpa using heq
      subst hbehind
      rw [List.append_nil] at hopen
      exact ⟨.inr ⟨⟨c, more, hquote, hopen, rfl⟩, rfl⟩, (tokens_nil false).trans words_nil.symm⟩
    · rintro ⟨⟨q, body, -, -, hbody⟩ | ⟨-, rfl⟩, -⟩
      · obtain ⟨rfl, rfl⟩ := hclosed hbody
        simp at hopen
      · exact ⟨by rw [List.append_nil], rfl⟩
  · rw [htokens, if_neg Bool.false_ne_true, if_neg Bool.false_ne_true, List.cons.injEq]
    constructor
    · rintro ⟨heq, hrest⟩
      obtain rfl : body ++ [c] = more := (List.cons.inj heq).2
      rw [List.append_assoc, List.singleton_append] at hafter
      obtain rfl := (append_cons_inj hbody hbody hafter).2
      exact ⟨.inl ⟨c, body, hquote, hbody, rfl⟩, hrest⟩
    · rintro ⟨⟨q, body', -, hbody', heq⟩ | ⟨⟨q, body', -, hbody', heq⟩, rfl⟩, hrest⟩
      · obtain ⟨rfl, rfl⟩ := hclosed heq
        rw [List.append_assoc, List.singleton_append] at hafter
        obtain ⟨rfl, rfl⟩ := append_cons_inj hbody' hbody hafter
        exact ⟨rfl, hrest⟩
      · obtain ⟨rfl, rfl⟩ := List.cons.inj heq
        rw [List.append_nil] at hafter
        rw [hafter] at hbody'
        simp at hbody'

end Quoted

/-- A text is split alike exactly if both functions find the same. -/
theorem tokens_eq_words_iff_splitsAlike (killq : Bool) (text : CString) :
    tokens killq text = words text ↔ SplitsAlike killq text := by
  induction hlength : text.length using Nat.strong_induction_on generalizing text with
  | _ length ih =>
      cases text with
      | nil => simp [tokens_nil, words_nil, SplitsAlike]
      | cons c text =>
          rw [List.length_cons] at hlength
          cases hspace : isspace c with
          | true =>
              have htokens := @tokens_spaces killq [c] (by simpa using hspace) text
              rw [List.singleton_append] at htokens
              rw [htokens, words_space hspace, splitsAlike_space hspace]
              exact ih _ (by omega) text rfl
          | false =>
              have hword := firstWord_takeWhile hspace text
              obtain ⟨more, -, hmore⟩ := hword.exists_cons
              have hlt : (((c :: text).dropWhile fun c => !isspace c).drop 1).length < length := by
                have hbehind := congrArg List.length hmore
                rw [List.length_append] at hbehind
                rw [List.length_drop]
                omega
              rw [hword.splitsAlike_iff, ← ih _ hlt _ rfl, Alone]
              by_cases hquote : isQuote c
              · cases killq with
                | true =>
                    refine iff_of_false (hword.tokens_ne_words hquote) fun halone => ?_
                    rcases halone.1 with hunquoted | ⟨hfalse, -⟩
                    · exact hword.not_unquoted hquote hunquoted
                    · cases hfalse
                | false =>
                    rw [hword.tokens_eq_words_of_quote hquote,
                      or_iff_right (hword.not_unquoted hquote)]
                    simp
              · have hunquoted : Unquoted ((c :: text).takeWhile fun c => !isspace c) :=
                  fun d hd => Option.some.inj (hword.front.symm.trans hd) ▸ hquote
                rw [tokens_of_not_quote hspace hquote, words_cons hspace, List.cons.injEq]
                simp [hunquoted]

/-- **`qstr_btok` finds the words** that `readtok` finds: when it takes the quotes away, exactly if
no word begins with a quote; and when it keeps them, exactly if each word that begins with a quote
ends with the next one, except that the last one may be open if no white space is behind it. -/
theorem tokens_eq_words_iff (text : CString) :
    (tokens true text = words text ↔ ∀ word ∈ words text, Unquoted word) ∧
      (tokens false text = words text ↔
        (∀ word ∈ (words text).dropLast, Unquoted word ∨ Enclosed word) ∧
          ∀ word ∈ (words text).getLast?, Unquoted word ∨ Enclosed word ∨
            (Opened word ∧ ∀ c ∈ text.getLast?, isspace c = false)) := by
  rw [tokens_eq_words_iff_splitsAlike, tokens_eq_words_iff_splitsAlike]
  constructor
  · have hparts : ∀ word, word ∈ words text ↔
        word ∈ (words text).dropLast ∨ word ∈ (words text).getLast? := by
      intro word
      cases hwords : words text with
      | nil => simp
      | cons first others =>
          have hne : first :: others ≠ [] := List.cons_ne_nil first others
          rw [List.getLast?_eq_some_getLast hne, Option.mem_some_iff]
          conv_lhs => rw [← List.dropLast_append_getLast hne]
          rw [List.mem_append, List.mem_singleton, eq_comm (a := word)]
    simp only [SplitsAlike, hparts, or_imp, forall_and, reduceCtorEq, false_and, or_false]
  · simp only [SplitsAlike, true_and]

end BasC
