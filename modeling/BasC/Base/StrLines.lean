/-
# Lines in a growing buffer

`str_getline` stores the bytes of a line in the caller's buffer, which it doubles when the line
and its terminating NUL do not fit. The buffer is used again by the next call. Here the stream has
any bytes, the buffer has a size, and each write and each request for memory is recorded. Called
until it returns 0, `str_getline` takes the stream apart into its lines, and never writes outside
its buffer.
-/

import BasC.Base.ItemList
import BasC.Base.Memory
import BasC.Base.Str

namespace BasC

/-- How `malloc` and `realloc` turn out, by the size that is asked for. No object has more than
`PTRDIFF_MAX` bytes. -/
structure LineAlloc where
  succeeds : ℕ → Bool
  limited : ∀ size, succeeds size = true → size < 0x8000000000000000
  /-- What fresh memory contains. -/
  fresh : ℕ → UInt8

/-- `*lineptr`, when it is not `NULL`, with `*n`. -/
structure LineBuffer where
  text : ℕ → UInt8
  n : ℕ
  n_lt : n < 0x8000000000000000

/-- What is recorded: a request for memory, and a write with the size of the buffer. -/
inductive LineEvent
  | asked (size : ℕ)
  | wrote (index size : ℕ)

namespace LineBuffer

/-- `(*lineptr)[index] = byte`. -/
def store (buffer : LineBuffer) (index : ℕ) (byte : UInt8) : LineBuffer :=
  { buffer with text := Function.update buffer.text index byte }

/-- The first bytes of the buffer. -/
def line (buffer : LineBuffer) (len : ℕ) : List UInt8 := (List.range len).map buffer.text

/-- A buffer of another size with the same bytes in front; `none` is `NULL`. -/
def realloc (alloc : LineAlloc) (text : ℕ → UInt8) (n size : ℕ) : Option LineBuffer :=
  if hsize : alloc.succeeds size = true then
    some ⟨fun i => if i < n then text i else alloc.fresh i, size, alloc.limited size hsize⟩
  else none

end LineBuffer

/-- A stream: the bytes that are left, and its end-of-file flag. -/
structure ByteStream where
  bytes : List UInt8
  eof : Bool

/-- `if (len + 1 >= *n)`, and the `realloc` behind it. -/
def growLine (alloc : LineAlloc) (buffer : LineBuffer) (len : ℕ) :
    List LineEvent × Option LineBuffer :=
  if buffer.n ≤ (len + 1) % sizeMod then
    ([.asked (buffer.n * 2 % sizeMod)],
      LineBuffer.realloc alloc buffer.text buffer.n (buffer.n * 2 % sizeMod))
  else ([], some buffer)

/-- Why the loop of `str_getline` has ended. -/
inductive LineStop
  | eof
  | newline
  | noMemory

/-- How it has ended: the buffer, `len`, and what is left of the stream. -/
structure LineEnd where
  stop : LineStop
  buffer : LineBuffer
  len : ℕ
  rest : List UInt8

/-- `while ((ch = fgetc(stream)) != EOF)`. -/
def getlineLoop (alloc : LineAlloc) :
    List UInt8 → LineBuffer → ℕ → List LineEvent × LineEnd
  | [], buffer, len => ([], ⟨.eof, buffer, len, []⟩)
  | ch :: rest, buffer, len =>
      match growLine alloc buffer len with
      | (events, none) => (events, ⟨.noMemory, buffer, len, rest⟩)
      | (events, some grown) =>
          if ch = 10 then
            (events ++ [.wrote len grown.n],
              ⟨.newline, grown.store len ch, (len + 1) % sizeMod, rest⟩)
          else
            let more := getlineLoop alloc rest (grown.store len ch) ((len + 1) % sizeMod)
            (events ++ .wrote len grown.n :: more.1, more.2)

/-- What a call leaves: its return value, `*lineptr`, and the stream. -/
structure LineReturn where
  ret : ℤ
  lineptr : Option LineBuffer
  stream : ByteStream

/-- `if (!*lineptr || *n == 0)`, and the `malloc` behind it. -/
def openLine (alloc : LineAlloc) : Option LineBuffer → List LineEvent × Option LineBuffer
  | some buffer =>
      if buffer.n = 0 then ([.asked 128], LineBuffer.realloc alloc alloc.fresh 0 128)
      else ([], some buffer)
  | none => ([.asked 128], LineBuffer.realloc alloc alloc.fresh 0 128)

/-- `str_getline`. -/
def strGetlineInto (alloc : LineAlloc) (lineptr : Option LineBuffer) (stream : ByteStream) :
    List LineEvent × LineReturn :=
  if stream.eof then ([], ⟨0, lineptr, stream⟩)
  else
    match openLine alloc lineptr with
    | (events, none) => (events, ⟨-1, none, stream⟩)
    | (events, some buffer) =>
        let loop := getlineLoop alloc stream.bytes buffer 0
        match loop.2 with
        | ⟨.noMemory, buffer, _, rest⟩ => (events ++ loop.1, ⟨-1, some buffer, ⟨rest, false⟩⟩)
        | ⟨.newline, buffer, len, rest⟩ =>
            (events ++ loop.1 ++ [.wrote len buffer.n],
              ⟨toSsize len, some (buffer.store len 0), ⟨rest, false⟩⟩)
        | ⟨.eof, buffer, len, rest⟩ =>
            if len = 0 then (events ++ loop.1, ⟨0, some buffer, ⟨rest, true⟩⟩)
            else
              (events ++ loop.1 ++ [.wrote len buffer.n],
                ⟨toSsize len, some (buffer.store len 0), ⟨rest, true⟩⟩)

/-- Call `str_getline` until it returns 0, in no more than a number of calls: what is recorded,
and the lines. There are none if a call fails. -/
def getlinesInto (alloc : LineAlloc) :
    ℕ → Option LineBuffer → ByteStream → List LineEvent × Option (List (List UInt8))
  | 0, _, _ => ([], none)
  | calls + 1, lineptr, stream =>
      let call := strGetlineInto alloc lineptr stream
      if call.2.ret = 0 then (call.1, some [])
      else
        match call.2.lineptr with
        | some buffer =>
            if call.2.ret < 0 then (call.1, none)
            else
              let more := getlinesInto alloc calls call.2.lineptr call.2.stream
              (call.1 ++ more.1, more.2.map fun lines => buffer.line call.2.ret.toNat :: lines)
        | none => (call.1, none)

/-- Every write is inside the buffer. -/
def WritesInside (events : List LineEvent) : Prop :=
  ∀ index size, .wrote index size ∈ events → index < size

/-- No request for memory fails. -/
def AllSucceed (alloc : LineAlloc) (events : List LineEvent) : Prop :=
  ∀ size, .asked size ∈ events → alloc.succeeds size = true

theorem WritesInside.nil : WritesInside [] := by
  intro index size hmem
  cases hmem

theorem WritesInside.asked (size : ℕ) : WritesInside [.asked size] := by
  intro index size' hmem
  cases List.mem_singleton.mp hmem

theorem WritesInside.wrote {index size : ℕ} (hindex : index < size) :
    WritesInside [.wrote index size] := by
  intro index' size' hmem
  cases List.mem_singleton.mp hmem
  exact hindex

theorem WritesInside.append {first second : List LineEvent} (hfirst : WritesInside first)
    (hsecond : WritesInside second) : WritesInside (first ++ second) := by
  intro index size hmem
  rcases List.mem_append.mp hmem with hmem | hmem
  · exact hfirst index size hmem
  · exact hsecond index size hmem

/-! ## The lines of a text -/

/-- The lines of a text, each with its newline; the last one need not have it. -/
structure LinesOf (bytes : List UInt8) (lines : List (List UInt8)) : Prop where
  flatten : lines.flatten = bytes
  nonempty : ∀ line ∈ lines, line ≠ []
  newline_last : ∀ line ∈ lines, 10 ∉ line.dropLast
  newline_dropLast : ∀ line ∈ lines.dropLast, line.getLast? = some 10

namespace LinesOf

theorem nil : LinesOf [] [] where
  flatten := rfl
  nonempty := by simp
  newline_last := by simp
  newline_dropLast := by simp

theorem eq_nil {lines : List (List UInt8)} (hlines : LinesOf [] lines) : lines = [] := by
  rcases lines with _ | ⟨line, lines⟩
  · rfl
  · have hflatten := hlines.flatten
    rw [List.flatten_cons] at hflatten
    exact absurd (List.append_eq_nil_iff.mp hflatten).1 (hlines.nonempty line List.mem_cons_self)

theorem last {line : List UInt8} (hline : line ≠ []) (hnone : 10 ∉ line) :
    LinesOf line [line] where
  flatten := List.append_nil _
  nonempty := by simpa using hline
  newline_last := by
    simpa using fun hmem => hnone (List.mem_of_mem_dropLast hmem)
  newline_dropLast := by simp

theorem cons {body rest : List UInt8} {lines : List (List UInt8)} (hlines : LinesOf rest lines)
    (hbody : 10 ∉ body) : LinesOf (body ++ [10] ++ rest) ((body ++ [10]) :: lines) where
  flatten := by rw [List.flatten_cons, hlines.flatten]
  nonempty := List.forall_mem_cons.mpr ⟨by simp, hlines.nonempty⟩
  newline_last := List.forall_mem_cons.mpr ⟨by simpa using hbody, hlines.newline_last⟩
  newline_dropLast := by
    intro line hmem
    rcases lines with _ | ⟨next, lines⟩
    · cases hmem
    · rw [List.dropLast_cons_of_ne_nil (List.cons_ne_nil _ _)] at hmem
      rcases List.mem_cons.mp hmem with rfl | hmem
      · simp
      · exact hlines.newline_dropLast line hmem

/-- Another character in front of the first line. -/
theorem cons_byte {bytes line : List UInt8} {lines : List (List UInt8)} {byte : UInt8}
    (hlines : LinesOf bytes (line :: lines)) (hbyte : byte ≠ 10) :
    LinesOf (byte :: bytes) ((byte :: line) :: lines) where
  flatten := congrArg (byte :: ·) hlines.flatten
  nonempty := List.forall_mem_cons.mpr
    ⟨List.cons_ne_nil _ _, fun next hmem => hlines.nonempty next (List.mem_cons_of_mem _ hmem)⟩
  newline_last := by
    refine List.forall_mem_cons.mpr ⟨fun hmem => ?_, fun next hmem =>
      hlines.newline_last next (List.mem_cons_of_mem _ hmem)⟩
    rw [List.dropLast_cons_of_ne_nil (hlines.nonempty line List.mem_cons_self)] at hmem
    rcases List.mem_cons.mp hmem with heq | hmem
    · exact hbyte heq.symm
    · exact hlines.newline_last line List.mem_cons_self hmem
  newline_dropLast := by
    intro next hmem
    rcases lines with _ | ⟨second, lines⟩
    · cases hmem
    · rw [List.dropLast_cons_of_ne_nil (List.cons_ne_nil _ _)] at hmem
      have hnext (text : List UInt8) (htext : text ∈ (line :: second :: lines).dropLast) :=
        hlines.newline_dropLast text htext
      rw [List.dropLast_cons_of_ne_nil (List.cons_ne_nil _ _)] at hnext
      rcases List.mem_cons.mp hmem with rfl | hmem
      · rw [List.getLast?_cons_of_ne_nil (hlines.nonempty line List.mem_cons_self)]
        exact hnext line List.mem_cons_self
      · exact hnext next (List.mem_cons_of_mem _ hmem)

/-- The first line goes up to the first newline. -/
theorem first {bytes line : List UInt8} {lines : List (List UInt8)}
    (hlines : LinesOf bytes (line :: lines)) :
    line = bytes.takeWhile (· ≠ 10) ++ (bytes.dropWhile (· ≠ 10)).take 1 := by
  have hbytes := hlines.flatten
  rw [List.flatten_cons] at hbytes
  have hstop {body : List UInt8} (hbody : 10 ∉ body) :
      ∀ byte ∈ body, decide (byte ≠ 10) = true := by
    intro byte hmem
    exact decide_eq_true fun heq => hbody (heq ▸ hmem)
  subst hbytes
  by_cases hline : 10 ∈ line
  · have hne : line ≠ [] := List.ne_nil_of_mem hline
    have hlast := hlines.newline_last line List.mem_cons_self
    rw [← List.dropLast_append_getLast hne] at hline ⊢
    rcases List.mem_append.mp hline with hmem | hmem
    · exact absurd hmem hlast
    · rw [← List.mem_singleton.mp hmem, List.append_assoc,
        List.takeWhile_append_of_pos (hstop hlast), List.dropWhile_append_of_pos (hstop hlast)]
      simp
  · rcases lines with _ | ⟨next, lines⟩
    · rw [List.flatten_nil, List.append_nil, List.takeWhile_eq_self_iff.mpr (hstop hline),
        List.dropWhile_eq_nil_iff.mpr (hstop hline)]
      simp
    · have hmem : line ∈ (line :: next :: lines).dropLast := by simp
      exact absurd (List.mem_of_getLast? (hlines.newline_dropLast line hmem)) hline

theorem tail {bytes line : List UInt8} {lines : List (List UInt8)}
    (hlines : LinesOf bytes (line :: lines)) : LinesOf lines.flatten lines where
  flatten := rfl
  nonempty := fun next hmem => hlines.nonempty next (List.mem_cons_of_mem _ hmem)
  newline_last := fun next hmem => hlines.newline_last next (List.mem_cons_of_mem _ hmem)
  newline_dropLast := by
    intro next hmem
    refine hlines.newline_dropLast next ?_
    rw [List.dropLast_cons_of_ne_nil]
    · exact List.mem_cons_of_mem _ hmem
    · rintro rfl
      cases hmem

/-- **A text has one way to be taken apart**, and for a text without NUL it is the one that
`getlines` finds. -/
theorem unique {bytes : List UInt8} {lines lines' : List (List UInt8)}
    (hlines : LinesOf bytes lines) (hlines' : LinesOf bytes lines') : lines = lines' := by
  induction lines generalizing bytes lines' with
  | nil =>
      obtain rfl := hlines.flatten
      exact hlines'.eq_nil.symm
  | cons line lines ih =>
      rcases lines' with _ | ⟨line', lines'⟩
      · obtain rfl := hlines'.flatten
        exact hlines.eq_nil
      · obtain rfl : line = line' := hlines.first.trans hlines'.first.symm
        have hrest : lines.flatten = lines'.flatten := by
          have hflatten := hlines.flatten.trans hlines'.flatten.symm
          rw [List.flatten_cons, List.flatten_cons] at hflatten
          exact List.append_cancel_left hflatten
        exact congrArg (line :: ·) (ih hlines.tail (hrest ▸ hlines'.tail))

end LinesOf

theorem newline_notMem_map {text : CString} (htext : CChar.newline ∉ text) : 10 ∉ bytesOf text := by
  intro hmem
  obtain ⟨c, hc, hbyte⟩ := List.mem_map.mp hmem
  have heq : c = CChar.newline := Subtype.ext hbyte
  exact htext (heq ▸ hc)

theorem linesOf_getlines (stream : CString) :
    LinesOf (bytesOf stream) ((getlines stream).map bytesOf) := by
  fun_induction getlines stream with
  | case1 => exact .nil
  | case2 stream hstream ih =>
      rw [List.map_cons]
      rcases hdrop : stream.dropWhile (· ≠ CChar.newline) with _ | ⟨c, rest⟩
      · have hnone : CChar.newline ∉ stream := fun hmem => by
          simpa using List.dropWhile_eq_nil_iff.mp hdrop _ hmem
        have hcall : strGetline stream = (stream, []) := by rw [strGetline, hdrop]
        rw [hcall, getlines_nil]
        refine .last ?_ (newline_notMem_map hnone)
        simpa [bytesOf] using hstream
      · have hc : c = CChar.newline := by
          have := List.head?_dropWhile_not (· ≠ CChar.newline) stream
          rw [hdrop] at this
          simpa using this
        have hcall : strGetline stream = (stream.takeWhile (· ≠ CChar.newline) ++ [c], rest) := by
          rw [strGetline, hdrop]
        have hbody : CChar.newline ∉ stream.takeWhile (· ≠ CChar.newline) := fun hmem => by
          simpa using List.mem_takeWhile_imp hmem
        have happend := strGetline_append stream
        rw [hcall] at ih happend ⊢
        subst hc
        have hcons := ih.cons (newline_notMem_map hbody)
        have hline : bytesOf (stream.takeWhile (· ≠ CChar.newline) ++ [CChar.newline]) =
            bytesOf (stream.takeWhile (· ≠ CChar.newline)) ++ [10] := List.map_append
        have hbytes : bytesOf stream =
            bytesOf (stream.takeWhile (· ≠ CChar.newline) ++ [CChar.newline]) ++ bytesOf rest :=
          (congrArg bytesOf happend.symm).trans List.map_append
        rw [hbytes, hline]
        exact hcons

section Runs

variable {alloc : LineAlloc}

theorem AllSucceed.left {first second : List LineEvent}
    (hall : AllSucceed alloc (first ++ second)) : AllSucceed alloc first :=
  fun size hmem => hall size (List.mem_append_left _ hmem)

theorem AllSucceed.right {first second : List LineEvent}
    (hall : AllSucceed alloc (first ++ second)) : AllSucceed alloc second :=
  fun size hmem => hall size (List.mem_append_right _ hmem)

theorem AllSucceed.tail {event : LineEvent} {events : List LineEvent}
    (hall : AllSucceed alloc (event :: events)) : AllSucceed alloc events :=
  fun size hmem => hall size (List.mem_cons_of_mem _ hmem)

namespace LineBuffer

theorem line_store (buffer : LineBuffer) (len : ℕ) (byte : UInt8) :
    (buffer.store len byte).line (len + 1) = buffer.line len ++ [byte] := by
  rw [line, List.range_succ, List.map_append, List.map_singleton]
  congr 1
  · refine List.map_congr_left fun i hi => Function.update_of_ne ?_ _ _
    exact (List.mem_range.mp hi).ne
  · exact congrArg (fun last => [last]) (Function.update_self _ _ _)

/-- The terminating NUL is behind the line. -/
theorem line_terminate (buffer : LineBuffer) (len : ℕ) (byte : UInt8) :
    (buffer.store len byte).line len = buffer.line len :=
  List.map_congr_left fun _ hi => Function.update_of_ne (List.mem_range.mp hi).ne _ _

theorem realloc_some {text : ℕ → UInt8} {n size : ℕ} {grown : LineBuffer}
    (hgrown : LineBuffer.realloc alloc text n size = some grown) :
    grown.n = size ∧ ∀ i < n, grown.text i = text i := by
  rw [LineBuffer.realloc] at hgrown
  split at hgrown
  · cases hgrown
    exact ⟨rfl, fun i hi => if_pos hi⟩
  · cases hgrown

theorem realloc_none {text : ℕ → UInt8} {n size : ℕ}
    (hnone : LineBuffer.realloc alloc text n size = none) : ¬ AllSucceed alloc [.asked size] := by
  intro hall
  rw [LineBuffer.realloc, dif_pos (hall size List.mem_cons_self)] at hnone
  cases hnone

/-- One more byte does not wrap. -/
theorem succ_mod (buffer : LineBuffer) {len : ℕ} (hlen : len < buffer.n) :
    (len + 1) % sizeMod = len + 1 := by
  have hn := buffer.n_lt
  have hmod : sizeMod = 2 * 0x8000000000000000 := rfl
  exact Nat.mod_eq_of_lt (by omega)

/-- Twice the size does not wrap. -/
theorem double_mod (buffer : LineBuffer) : buffer.n * 2 % sizeMod = buffer.n * 2 := by
  have hn := buffer.n_lt
  have hmod : sizeMod = 2 * 0x8000000000000000 := rfl
  exact Nat.mod_eq_of_lt (by omega)

end LineBuffer

theorem growLine_inside (buffer : LineBuffer) (len : ℕ) :
    WritesInside (growLine alloc buffer len).1 := by
  rw [growLine]
  split
  · exact .asked _
  · exact .nil

/-- **There is room for the byte and for the NUL behind it.** The buffer is doubled when
`len + 1` is its size, and a buffer of one byte has two then. -/
theorem growLine_some {buffer grown : LineBuffer} {len : ℕ} (hlen : len < buffer.n)
    (hgrown : (growLine alloc buffer len).2 = some grown) :
    len + 1 < grown.n ∧ grown.line len = buffer.line len := by
  rw [growLine, buffer.succ_mod hlen, buffer.double_mod] at hgrown
  split at hgrown
  · obtain ⟨hsize, htext⟩ := LineBuffer.realloc_some hgrown
    refine ⟨by omega, List.map_congr_left fun i hi => htext i ?_⟩
    exact (List.mem_range.mp hi).trans hlen
  · cases hgrown
    exact ⟨by omega, rfl⟩

/-- There is no room only if a request has failed. -/
theorem growLine_none {buffer : LineBuffer} {len : ℕ} {events : List LineEvent}
    (hgrow : growLine alloc buffer len = (events, none)) : ¬ AllSucceed alloc events := by
  rw [growLine] at hgrow
  split at hgrow
  · obtain ⟨rfl, hnone⟩ := Prod.ext_iff.mp hgrow
    exact LineBuffer.realloc_none hnone
  · cases hgrow

variable (alloc) in
/-- The loop writes inside the buffer, and leaves room for the NUL. -/
theorem getlineLoop_inside {buffer : LineBuffer} {len : ℕ} (hlen : len < buffer.n)
    (bytes : List UInt8) :
    WritesInside (getlineLoop alloc bytes buffer len).1 ∧
      (getlineLoop alloc bytes buffer len).2.len <
        (getlineLoop alloc bytes buffer len).2.buffer.n := by
  induction bytes generalizing buffer len with
  | nil => exact ⟨.nil, hlen⟩
  | cons ch rest ih =>
      have hevents : WritesInside (growLine alloc buffer len).1 := growLine_inside buffer len
      rcases hgrow : growLine alloc buffer len with ⟨events, _ | grown⟩
      all_goals
        rw [hgrow] at hevents
        simp only [getlineLoop, hgrow]
      · exact ⟨hevents, hlen⟩
      · have hroom := (growLine_some hlen (congrArg Prod.snd hgrow)).1
        have hwrote : WritesInside [.wrote len grown.n] := .wrote (Nat.lt_of_succ_lt hroom)
        rw [grown.succ_mod (Nat.lt_of_succ_lt hroom)]
        split
        · exact ⟨hevents.append hwrote, hroom⟩
        · have hmore := @ih (grown.store len ch) (len + 1) hroom
          exact ⟨hevents.append (hwrote.append hmore.1), hmore.2⟩

/-- What the loop has taken from the stream: a text up to its newline, or up to the end. -/
def LineEnd.Takes (ended : LineEnd) (bytes taken : List UInt8) : Prop :=
  bytes = taken ++ ended.rest ∧
    match ended.stop with
    | .eof => ended.rest = [] ∧ 10 ∉ taken
    | .newline => ∃ body, taken = body ++ [10] ∧ 10 ∉ body
    | .noMemory => False

theorem LineEnd.Takes.cons {ended : LineEnd} {bytes taken : List UInt8} {ch : UInt8}
    (htakes : ended.Takes bytes taken) (hch : ch ≠ 10) :
    ended.Takes (ch :: bytes) (ch :: taken) := by
  obtain ⟨hbytes, hstop⟩ := htakes
  refine ⟨congrArg (ch :: ·) hbytes, ?_⟩
  cases hended : ended.stop with
  | eof =>
      rw [hended] at hstop
      exact ⟨hstop.1, List.not_mem_cons_of_ne_of_not_mem hch.symm hstop.2⟩
  | newline =>
      rw [hended] at hstop
      obtain ⟨body, rfl, hbody⟩ := hstop
      exact ⟨ch :: body, rfl, List.not_mem_cons_of_ne_of_not_mem hch.symm hbody⟩
  | noMemory => rwa [hended] at hstop

/-- **Behind what it held, the buffer holds what the loop has taken from the stream.** -/
theorem getlineLoop_line {buffer : LineBuffer} {len : ℕ} (hlen : len < buffer.n)
    {bytes : List UInt8} (hall : AllSucceed alloc (getlineLoop alloc bytes buffer len).1) :
    ∃ taken, (getlineLoop alloc bytes buffer len).2.Takes bytes taken ∧
      (getlineLoop alloc bytes buffer len).2.len = len + taken.length ∧
      (getlineLoop alloc bytes buffer len).2.buffer.line (len + taken.length) =
        buffer.line len ++ taken := by
  induction bytes generalizing buffer len with
  | nil => exact ⟨[], ⟨rfl, rfl, List.not_mem_nil⟩, rfl, (List.append_nil _).symm⟩
  | cons ch rest ih =>
      rcases hgrow : growLine alloc buffer len with ⟨events, _ | grown⟩
      · simp only [getlineLoop, hgrow] at hall
        exact absurd hall (growLine_none hgrow)
      · obtain ⟨hroom, hline⟩ := growLine_some hlen (congrArg Prod.snd hgrow)
        have hsucc := grown.succ_mod (Nat.lt_of_succ_lt hroom)
        have hstore : (grown.store len ch).line (len + 1) = buffer.line len ++ [ch] := by
          rw [LineBuffer.line_store, hline]
        simp only [getlineLoop, hgrow, hsucc] at hall ⊢
        by_cases hch : ch = 10
        · subst hch
          exact ⟨[10], ⟨rfl, [], rfl, List.not_mem_nil⟩, rfl, hstore⟩
        · rw [if_neg hch] at hall ⊢
          obtain ⟨taken, htakes, hcount, htaken⟩ :=
            @ih (grown.store len ch) (len + 1) hroom hall.right.tail
          rw [hstore, List.append_assoc, List.singleton_append] at htaken
          have hlength : len + 1 + taken.length = len + (ch :: taken).length := by
            rw [List.length_cons]
            omega
          exact ⟨ch :: taken, htakes.cons hch, hlength ▸ hcount, hlength ▸ htaken⟩

/-! ## One call -/

theorem openLine_inside (lineptr : Option LineBuffer) :
    WritesInside (openLine alloc lineptr).1 := by
  rcases lineptr with _ | buffer
  · exact .asked _
  · rw [openLine]
    split
    · exact .asked _
    · exact .nil

/-- The buffer has a byte at least. -/
theorem openLine_some {lineptr : Option LineBuffer} {events : List LineEvent}
    {buffer : LineBuffer} (hopen : openLine alloc lineptr = (events, some buffer)) :
    0 < buffer.n := by
  rcases lineptr with _ | given
  · have hgrown := LineBuffer.realloc_some (congrArg Prod.snd hopen)
    omega
  · rw [openLine] at hopen
    split at hopen
    · have hgrown := LineBuffer.realloc_some (congrArg Prod.snd hopen)
      omega
    · cases hopen
      exact Nat.pos_of_ne_zero ‹_›

theorem openLine_none {lineptr : Option LineBuffer} {events : List LineEvent}
    (hopen : openLine alloc lineptr = (events, none)) : ¬ AllSucceed alloc events := by
  rcases lineptr with _ | given
  · obtain ⟨rfl, hnone⟩ := Prod.ext_iff.mp hopen
    exact LineBuffer.realloc_none hnone
  · rw [openLine] at hopen
    split at hopen
    · obtain ⟨rfl, hnone⟩ := Prod.ext_iff.mp hopen
      exact LineBuffer.realloc_none hnone
    · cases hopen

/-- **No call writes outside its buffer**, whether or not there is memory. -/
theorem strGetlineInto_inside (lineptr : Option LineBuffer) (stream : ByteStream) :
    WritesInside (strGetlineInto alloc lineptr stream).1 := by
  rw [strGetlineInto]
  split
  · exact .nil
  · have hopened : WritesInside (openLine alloc lineptr).1 := openLine_inside lineptr
    rcases hopen : openLine alloc lineptr with ⟨events, _ | buffer⟩
    all_goals
      rw [hopen] at hopened
      dsimp only
    · exact hopened
    · have hloop := getlineLoop_inside alloc (openLine_some hopen) stream.bytes
      rcases hended : (getlineLoop alloc stream.bytes buffer 0).2 with ⟨_ | _, ended, len, rest⟩
      all_goals
        rw [hended] at hloop
        dsimp only
      · split
        · exact hopened.append hloop.1
        · exact (hopened.append hloop.1).append (.wrote hloop.2)
      · exact (hopened.append hloop.1).append (.wrote hloop.2)
      · exact hopened.append hloop.1

/-- A call has taken a text from the stream: up to its newline, or up to the end. The buffer
holds it, and the length of it is returned. -/
structure LineReturn.Reads (call : LineReturn) (bytes taken : List UInt8) : Prop where
  buffer : ∃ buffer, call.lineptr = some buffer ∧ buffer.line taken.length = taken
  ret : call.ret = taken.length
  bytes : bytes = taken ++ call.stream.bytes
  ends : (call.stream = ⟨[], true⟩ ∧ 10 ∉ taken) ∨
    (call.stream.eof = false ∧ ∃ body, taken = body ++ [10] ∧ 10 ∉ body)

theorem strGetlineInto_reads {lineptr : Option LineBuffer} {bytes : List UInt8}
    (hall : AllSucceed alloc (strGetlineInto alloc lineptr ⟨bytes, false⟩).1) :
    ∃ taken, (strGetlineInto alloc lineptr ⟨bytes, false⟩).2.Reads bytes taken := by
  rw [strGetlineInto, if_neg Bool.false_ne_true] at hall ⊢
  rcases hopen : openLine alloc lineptr with ⟨events, _ | buffer⟩
  all_goals
    rw [hopen] at hall
    dsimp only at hall ⊢
  · exact absurd hall (openLine_none hopen)
  · have hloop : AllSucceed alloc (getlineLoop alloc bytes buffer 0).1 := by
      rcases hended : (getlineLoop alloc bytes buffer 0).2 with ⟨_ | _, ended, len, rest⟩
      all_goals
        rw [hended] at hall
        dsimp only at hall
      · split at hall
        · exact hall.right
        · exact hall.left.right
      · exact hall.left.right
      · exact hall.right
    obtain ⟨taken, ⟨hbytes, hstop⟩, hcount, hline⟩ := getlineLoop_line (openLine_some hopen) hloop
    have hroom := (getlineLoop_inside alloc (openLine_some hopen) bytes).2
    rcases hended : (getlineLoop alloc bytes buffer 0).2 with ⟨_ | _, ended, len, rest⟩
    all_goals
      rw [hended] at hbytes hstop hcount hline hroom
      rw [Nat.zero_add] at hcount hline
      dsimp only at hbytes hcount hline hroom ⊢
      subst hcount
    · obtain ⟨rfl, hnone⟩ := hstop
      split
      · rename_i hempty
        exact ⟨taken, ⟨ended, rfl, hline⟩, by rw [hempty]; rfl, hbytes, .inl ⟨rfl, hnone⟩⟩
      · refine ⟨taken, ⟨_, rfl, ?_⟩, ?_, hbytes, .inl ⟨rfl, hnone⟩⟩
        · rw [LineBuffer.line_terminate]
          exact hline
        · exact toSsize_of_lt (hroom.trans ended.n_lt)
    · refine ⟨taken, ⟨_, rfl, ?_⟩, ?_, hbytes, .inr ⟨rfl, hstop⟩⟩
      · rw [LineBuffer.line_terminate]
        exact hline
      · exact toSsize_of_lt (hroom.trans ended.n_lt)
    · exact False.elim hstop

theorem getlinesInto_inside (calls : ℕ) (lineptr : Option LineBuffer) (stream : ByteStream) :
    WritesInside (getlinesInto alloc calls lineptr stream).1 := by
  induction calls generalizing lineptr stream with
  | zero => exact .nil
  | succ calls ih =>
      have hcall : WritesInside (strGetlineInto alloc lineptr stream).1 :=
        strGetlineInto_inside lineptr stream
      rw [getlinesInto]
      dsimp only
      split
      · exact hcall
      · split
        · split
          · exact hcall
          · exact hcall.append (ih _ _)
        · exact hcall

theorem AllSucceed.first_call {calls : ℕ} {lineptr : Option LineBuffer} {stream : ByteStream}
    (hall : AllSucceed alloc (getlinesInto alloc (calls + 1) lineptr stream).1) :
    AllSucceed alloc (strGetlineInto alloc lineptr stream).1 := by
  rw [getlinesInto] at hall
  dsimp only at hall
  split at hall
  · exact hall
  · split at hall
    · split at hall
      · exact hall
      · exact hall.left
    · exact hall

/-- A call that has taken nothing is the last one. -/
theorem getlinesInto_end {calls : ℕ} {lineptr : Option LineBuffer} {stream : ByteStream}
    (hret : (strGetlineInto alloc lineptr stream).2.ret = 0) :
    (getlinesInto alloc (calls + 1) lineptr stream).2 = some [] := by
  rw [getlinesInto]
  dsimp only
  rw [if_pos hret]

/-- Behind a call that has taken a text, the calls go on with what it leaves. -/
theorem getlinesInto_next {calls : ℕ} {lineptr : Option LineBuffer} {stream : ByteStream}
    {bytes taken : List UInt8} (htaken : taken ≠ [])
    (hreads : (strGetlineInto alloc lineptr stream).2.Reads bytes taken) :
    getlinesInto alloc (calls + 1) lineptr stream =
      ((strGetlineInto alloc lineptr stream).1 ++
          (getlinesInto alloc calls (strGetlineInto alloc lineptr stream).2.lineptr
            (strGetlineInto alloc lineptr stream).2.stream).1,
        (getlinesInto alloc calls (strGetlineInto alloc lineptr stream).2.lineptr
          (strGetlineInto alloc lineptr stream).2.stream).2.map fun lines => taken :: lines) := by
  obtain ⟨⟨buffer, hbuffer, hline⟩, hret, -, -⟩ := hreads
  have hpos := List.length_pos_of_ne_nil htaken
  rw [getlinesInto]
  dsimp only
  rw [if_neg (by omega), hbuffer]
  dsimp only
  rw [if_neg (by omega), hret, Int.toNat_natCast, hline]

/-- A stream that is at its end has no bytes left. -/
theorem LineReturn.Reads.at_end {call : LineReturn} {bytes taken : List UInt8}
    (hreads : call.Reads bytes taken) (heof : call.stream.eof = true) : call.stream.bytes = [] := by
  rcases hreads.ends with ⟨hstream, -⟩ | ⟨hnot, -⟩
  · rw [hstream]
  · cases hnot.symm.trans heof

/-- The text that a call has taken is the first line. -/
theorem LineReturn.Reads.linesOf {call : LineReturn} {bytes taken : List UInt8}
    {lines : List (List UInt8)} (hreads : call.Reads bytes taken) (htaken : taken ≠ [])
    (hlines : LinesOf call.stream.bytes lines) : LinesOf bytes (taken :: lines) := by
  rw [hreads.bytes]
  rcases hreads.ends with ⟨hstream, hnone⟩ | ⟨-, body, rfl, hbody⟩
  · rw [hstream] at hlines ⊢
    obtain rfl := hlines.eq_nil
    rw [List.append_nil]
    exact .last htaken hnone
  · exact hlines.cons hbody

/-- The calls yield the lines of what is left of the stream, when it is known that a stream at its
end has no bytes. -/
theorem getlinesInto_lines {calls : ℕ} {lineptr : Option LineBuffer} {stream : ByteStream}
    (heof : stream.eof = true → stream.bytes = []) (hcalls : stream.bytes.length < calls)
    (hall : AllSucceed alloc (getlinesInto alloc calls lineptr stream).1) :
    ∃ lines, (getlinesInto alloc calls lineptr stream).2 = some lines ∧
      LinesOf stream.bytes lines := by
  induction calls generalizing lineptr stream with
  | zero => exact absurd hcalls (Nat.not_lt_zero _)
  | succ calls ih =>
      obtain ⟨bytes, _ | _⟩ := stream
      · obtain ⟨taken, hreads⟩ := strGetlineInto_reads hall.first_call
        by_cases htaken : taken = []
        · subst htaken
          obtain rfl : bytes = [] := by
            rcases hreads.ends with ⟨hstream, -⟩ | ⟨-, body, hbody, -⟩
            · rw [hreads.bytes, hstream, List.append_nil]
            · exact absurd hbody.symm (List.concat_ne_nil _ _)
          exact ⟨[], getlinesInto_end hreads.ret, .nil⟩
        · rw [getlinesInto_next htaken hreads] at hall ⊢
          have hpos := List.length_pos_of_ne_nil htaken
          have hlength := congrArg List.length hreads.bytes
          rw [List.length_append] at hlength
          obtain ⟨lines, hmore, hlines⟩ := ih hreads.at_end (by dsimp only at hcalls; omega)
            hall.right
          exact ⟨taken :: lines, by rw [hmore, Option.map_some], hreads.linesOf htaken hlines⟩
      · obtain rfl := heof rfl
        exact ⟨[], rfl, .nil⟩

/-- **`strGetline` is what a call comes to**, where the text has no NUL and there is memory. -/
theorem getlinesInto_getlines {alloc : LineAlloc} {lineptr : Option LineBuffer} {stream : CString}
    {calls : ℕ} (hcalls : (bytesOf stream).length < calls)
    (hall : AllSucceed alloc (getlinesInto alloc calls lineptr ⟨bytesOf stream, false⟩).1) :
    (getlinesInto alloc calls lineptr ⟨bytesOf stream, false⟩).2 =
      some ((getlines stream).map bytesOf) := by
  obtain ⟨lines, hrun, hlines⟩ := getlinesInto_lines (fun hat => by cases hat) hcalls hall
  rw [hrun, hlines.unique (linesOf_getlines stream)]

/-- **`str_getline` takes every stream apart without loss**: whatever bytes it has and whatever
buffer there is at first, the calls until the one that returns 0 yield its lines, as long as there
is memory, and they never write outside the buffer. -/
theorem getlinesInto_linesOf (alloc : LineAlloc) (lineptr : Option LineBuffer)
    (bytes : List UInt8) (more : ℕ) :
    WritesInside (getlinesInto alloc (bytes.length + 1 + more) lineptr ⟨bytes, false⟩).1 ∧
      (AllSucceed alloc (getlinesInto alloc (bytes.length + 1 + more) lineptr ⟨bytes, false⟩).1 →
        ∃ lines, (getlinesInto alloc (bytes.length + 1 + more) lineptr ⟨bytes, false⟩).2 =
          some lines ∧ LinesOf bytes lines) := by
  refine ⟨getlinesInto_inside _ _ _, getlinesInto_lines (fun hat => ?_) ?_⟩
  · cases hat
  · dsimp only
    omega

end Runs

/-- An allocator that has every object there can be. -/
def ampleAlloc : LineAlloc where
  succeeds size := size < 0x8000000000000000
  limited _ hsize := of_decide_eq_true hsize
  fresh _ := 0

theorem allSucceed_two :
    AllSucceed ampleAlloc (getlinesInto ampleAlloc 4 (some ⟨fun _ => 0, 1, by decide⟩)
      ⟨[97, 10, 98], false⟩).1 := by
  intro size hmem
  have hevents : (getlinesInto ampleAlloc 4 (some ⟨fun _ => 0, 1, by decide⟩)
      ⟨[97, 10, 98], false⟩).1 = [.asked 2, .wrote 0 2, .asked 4, .wrote 1 4, .wrote 2 4,
        .wrote 0 4, .wrote 1 4] := rfl
  rw [hevents] at hmem
  simp only [List.mem_cons, LineEvent.asked.injEq, reduceCtorEq, List.not_mem_nil, or_false,
    false_or] at hmem
  rcases hmem with rfl | rfl <;> rfl

/-- Two lines, the second without a newline, into a buffer of one byte that has to grow. -/
theorem getlinesInto_linesOf_two :
    ∃ lines, (getlinesInto ampleAlloc 4 (some ⟨fun _ => 0, 1, by decide⟩)
      ⟨[97, 10, 98], false⟩).2 = some lines ∧ LinesOf [97, 10, 98] lines :=
  (getlinesInto_linesOf ampleAlloc (some ⟨fun _ => 0, 1, by decide⟩) [97, 10, 98] 0).2
    allSucceed_two

end BasC
