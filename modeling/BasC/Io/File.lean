/-
# Loading a file into memory

`_load_file` reads a stream block by block into a buffer that doubles when a block and the
padding behind it do not fit. What is left of the buffer is computed in `size_t`, so it is a
large number when the offset and the padding alone are more than the capacity.
-/

import Mathlib.Data.List.GetD
import Mathlib.Tactic.NormNum

namespace BasC

/-- `BLOCK_SIZE`, the size of `buf`. -/
def blockSize : ℕ := 64

/-- What one call of `fread` puts into `buf`. -/
def Block : Type := { bytes : List UInt8 // bytes.length ≤ blockSize }

/-- A stream, as the calls of `fread` find it. -/
inductive FileStream
  /-- `feof` is set. -/
  | eof
  /-- The next call reads a block. -/
  | block (buf : Block) (rest : FileStream)
  /-- The next call sets `ferror`. -/
  | error

namespace FileStream

/-- The bytes of the stream, up to its end or the read error. -/
def bytes : FileStream → List UInt8
  | .eof => []
  | .block buf rest => buf.1 ++ rest.bytes
  | .error => []

/-- Reading fails before the end. -/
def fails : FileStream → Bool
  | .eof => false
  | .block _ rest => rest.fails
  | .error => true

end FileStream

/-- The allocator. A size that `realloc` gives is positive and at most `PTRDIFF_MAX`. -/
structure Allocator where
  /-- Whether `malloc(16)` succeeds. -/
  malloc : Bool
  realloc : ℕ → Bool
  /-- What fresh memory holds. -/
  fresh : ℕ → UInt8
  realloc_pos : ∀ size, realloc size = true → 0 < size
  realloc_lt : ∀ size, realloc size = true → size < 2 ^ 63

/-- The variables of `_load_file`. -/
structure LoadVars where
  /-- The contents of the buffer, or `NULL`. -/
  data : Option (ℕ → UInt8)
  capacity : ℕ
  off : ℕ

/-- The difference of two `size_t`. -/
def subSize (a b : ℕ) : ℕ := (((a : ℤ) - b) % 2 ^ 64).toNat

/-- `capacity - off - padding`. -/
def remaining (padding : ℕ) (vars : LoadVars) : ℕ :=
  subSize (subSize vars.capacity vars.off) padding

/-- The inner loop: double the buffer until `cb` bytes remain, or exit. -/
def makeRoom (alloc : Allocator) (padding cb : ℕ) (vars : LoadVars) : Option LoadVars :=
  if cb ≤ remaining padding vars then some vars
  else if _hrealloc : alloc.realloc (vars.capacity * 2) = true then
    makeRoom alloc padding cb
      { vars with data := some (vars.data.getD alloc.fresh), capacity := vars.capacity * 2 }
  else none
termination_by 2 ^ 64 - vars.capacity
decreasing_by
  have hpos := alloc.realloc_pos _ _hrealloc
  have hlt := alloc.realloc_lt _ _hrealloc
  omega

/-- `memcpy(data + off, buf, cb)`. -/
def storeBlock (data : ℕ → UInt8) (off : ℕ) (buf : List UInt8) : ℕ → UInt8 :=
  fun i => if off ≤ i then buf.getD (i - off) (data i) else data i

/-- How a call ends. -/
inductive LoadOutcome
  /-- A buffer of `capacity` bytes is returned, and `*sizep` is `size`. -/
  | buffer (capacity size : ℕ) (data : ℕ → UInt8)
  /-- `NULL` is returned. -/
  | noBuffer
  /-- The program exits for want of memory. -/
  | exits
  /-- A block is copied to `NULL` or across the end of the buffer. -/
  | overrun

/-- The outer loop, and what is returned behind it. -/
def readBlocks (alloc : Allocator) (memOff padding : ℕ) : FileStream → LoadVars → LoadOutcome
  | .eof, vars =>
      match vars.data with
      | some data => .buffer vars.capacity (subSize vars.off memOff) data
      | none => .noBuffer
  | .error, _ => .noBuffer
  | .block buf rest, vars =>
      match makeRoom alloc padding buf.1.length vars with
      | none => .exits
      | some vars =>
          match vars.data with
          | none => .overrun
          | some data =>
              if vars.off + buf.1.length ≤ vars.capacity then
                readBlocks alloc memOff padding rest
                  { vars with data := some (storeBlock data vars.off buf.1)
                              off := (vars.off + buf.1.length) % 2 ^ 64 }
              else .overrun

/-- The variables in front of the loop. -/
def loadVars (alloc : Allocator) (memOff : ℕ) : LoadVars :=
  ⟨if alloc.malloc then some alloc.fresh else none, 16, memOff⟩

/-- `_load_file`. -/
def loadFile (alloc : Allocator) (memOff padding : ℕ) (stream : FileStream) : LoadOutcome :=
  readBlocks alloc memOff padding stream (loadVars alloc memOff)

/-- What is promised of a call: every block is copied into the buffer, and a buffer that is
returned holds the bytes of the stream, with the padding behind them. -/
def LoadOutcome.Keeps (memOff padding : ℕ) (bytes : List UInt8) : LoadOutcome → Prop
  | .buffer capacity size data =>
      memOff + size + padding ≤ capacity ∧ size = bytes.length ∧
        (List.range size).map (fun i => data (memOff + i)) = bytes
  | .noBuffer => True
  | .exits => True
  | .overrun => False

/-- The offset and the padding fit the buffer, and there is a buffer: `malloc` gave one, or
the first block does not fit the sixteen bytes and `realloc` has to. -/
def StartsInRoom (alloc : Allocator) (memOff padding : ℕ) (stream : FileStream) : Prop :=
  memOff + padding ≤ 16 ∧
    (alloc.malloc = true ∨
      ∃ buf rest, stream = .block buf rest ∧ 16 < memOff + padding + buf.1.length)

/-- Nothing is copied before the call returns `NULL`, or all that is copied before a read
error fits the sixteen bytes. -/
def CopiesNothing (alloc : Allocator) (memOff : ℕ) (stream : FileStream) : Prop :=
  stream = .error ∨ (stream = .eof ∧ alloc.malloc = false) ∨
    (stream.fails = true ∧ alloc.malloc = true ∧ memOff + stream.bytes.length ≤ 16)

theorem remaining_of_le {padding : ℕ} {vars : LoadVars}
    (hroom : vars.off + padding ≤ vars.capacity) (hcapacity : vars.capacity < 2 ^ 64) :
    remaining padding vars = vars.capacity - vars.off - padding := by
  unfold remaining subSize
  omega

/-- When the offset and the padding alone are too large, a large number remains. -/
theorem remaining_of_lt {padding : ℕ} {vars : LoadVars}
    (hshort : vars.capacity < vars.off + padding)
    (hsum : vars.off + padding ≤ vars.capacity + 2 ^ 64) :
    remaining padding vars = vars.capacity + 2 ^ 64 - vars.off - padding := by
  unfold remaining subSize
  omega

section MakeRoom

variable {alloc : Allocator} {padding cb : ℕ} {vars grown : LoadVars}

/-- The inner loop leaves the offset, and a buffer that is there stays there with what is
in it. -/
theorem makeRoom_frame (hgrown : makeRoom alloc padding cb vars = some grown) :
    grown.off = vars.off ∧ vars.capacity ≤ grown.capacity ∧
      (vars.capacity < 2 ^ 63 → grown.capacity < 2 ^ 63) ∧
      ∀ data, vars.data = some data → grown.data = some data := by
  fun_induction makeRoom alloc padding cb vars with
  | case1 vars hfits =>
      obtain rfl := Option.some.inj hgrown
      exact ⟨rfl, Nat.le_refl _, id, fun _ hdata => hdata⟩
  | case2 vars hfits hrealloc ih =>
      obtain ⟨hoff, hle, hlt, hdata⟩ := ih hgrown
      refine ⟨hoff, Nat.le_trans (Nat.le_mul_of_pos_right _ (by decide)) hle,
        fun _ => hlt (alloc.realloc_lt _ hrealloc), fun data hsome => hdata data ?_⟩
      simp only [hsome, Option.getD_some]
  | case3 vars hfits hrealloc => cases hgrown

/-- A buffer with room for the offset and the padding gets room for the block too. -/
theorem makeRoom_room (hgrown : makeRoom alloc padding cb vars = some grown)
    (hroom : vars.off + padding ≤ vars.capacity) (hcapacity : vars.capacity < 2 ^ 63) :
    vars.off + cb + padding ≤ grown.capacity := by
  fun_induction makeRoom alloc padding cb vars with
  | case1 vars hfits =>
      obtain rfl := Option.some.inj hgrown
      rw [remaining_of_le hroom (by omega)] at hfits
      omega
  | case2 vars hfits hrealloc ih =>
      exact ih hgrown (by simp only; omega) (alloc.realloc_lt _ hrealloc)
  | case3 vars hfits hrealloc => cases hgrown

/-- A buffer without room for the offset and the padding never gets it. -/
theorem makeRoom_short (hgrown : makeRoom alloc padding cb vars = some grown)
    (hcb : cb ≤ blockSize) (hshort : vars.capacity < vars.off + padding)
    (hsum : vars.off + padding < 2 ^ 64) :
    grown.capacity < grown.off + padding := by
  fun_induction makeRoom alloc padding cb vars with
  | case1 vars hfits =>
      obtain rfl := Option.some.inj hgrown
      exact hshort
  | case2 vars hfits hrealloc ih =>
      have hlt := alloc.realloc_lt _ hrealloc
      rw [remaining_of_lt hshort (by omega)] at hfits
      exact ih hgrown (by simp only [blockSize] at hcb ⊢; omega) hsum
  | case3 vars hfits hrealloc => cases hgrown

end MakeRoom

/-- A block behind the bytes that are there. -/
theorem map_storeBlock {data : ℕ → UInt8} {memOff : ℕ} {done : List UInt8}
    (hdone : (List.range done.length).map (fun i => data (memOff + i)) = done)
    (buf : List UInt8) :
    (List.range (done ++ buf).length).map
      (fun i => storeBlock data (memOff + done.length) buf (memOff + i)) = done ++ buf := by
  refine List.ext_getElem (by simp) fun i hi hi' => ?_
  rw [List.getElem_map, List.getElem_range, storeBlock]
  by_cases hbefore : i < done.length
  · have hbyte : data (memOff + i) = done[i] := by
      have hget := congrArg (fun bytes => bytes[i]?) hdone
      simpa [hbefore] using hget
    rw [if_neg (by omega), List.getElem_append_left hbefore, hbyte]
  · have hin : i - done.length < buf.length := by
      rw [List.length_append] at hi'
      omega
    have hsub : memOff + i - (memOff + done.length) = i - done.length := by omega
    rw [if_pos (by omega), List.getElem_append_right (by omega), hsub,
      List.getD_eq_getElem _ _ hin]

/-- The buffer holds `done` at `memOff`. -/
structure Holds (memOff : ℕ) (done : List UInt8) (vars : LoadVars) (data : ℕ → UInt8) :
    Prop where
  data_eq : vars.data = some data
  off_eq : vars.off = memOff + done.length
  bytes_eq : (List.range done.length).map (fun i => data (memOff + i)) = done
  capacity_lt : vars.capacity < 2 ^ 63

/-- **With room for the offset and the padding the loop keeps its promise.** -/
theorem keeps_of_room {alloc : Allocator} {memOff padding : ℕ} {stream : FileStream}
    {done : List UInt8} {vars : LoadVars} {data : ℕ → UInt8}
    (hholds : Holds memOff done vars data)
    (hroom : vars.off + padding ≤ vars.capacity) :
    (readBlocks alloc memOff padding stream vars).Keeps memOff padding (done ++ stream.bytes) := by
  induction stream generalizing done vars data with
  | eof =>
      obtain ⟨hdata, hoff, hbytes, hlt⟩ := hholds
      have hsize : subSize vars.off memOff = done.length := by
        unfold subSize
        omega
      simp only [readBlocks, hdata, hsize, FileStream.bytes, List.append_nil]
      exact ⟨by omega, rfl, hbytes⟩
  | error => exact trivial
  | block buf rest ih =>
      obtain ⟨hdata, hoff, hbytes, hlt⟩ := hholds
      rw [readBlocks]
      cases hgrown : makeRoom alloc padding buf.1.length vars with
      | none => exact trivial
      | some grown =>
          obtain ⟨hoff', -, hlt', hdata'⟩ := makeRoom_frame hgrown
          have hroom' := makeRoom_room hgrown hroom hlt
          have hinside : grown.off + buf.1.length ≤ grown.capacity := by omega
          have hmod : (grown.off + buf.1.length) % 2 ^ 64 = grown.off + buf.1.length :=
            Nat.mod_eq_of_lt (by have := hlt' hlt; omega)
          simp only [hdata' data hdata, hinside, if_true, hmod, FileStream.bytes,
            ← List.append_assoc]
          have hholds : Holds memOff (done ++ buf.1)
              ⟨some (storeBlock data grown.off buf.1), grown.capacity,
                grown.off + buf.1.length⟩ (storeBlock data grown.off buf.1) := by
            refine ⟨rfl, ?_, ?_, hlt' hlt⟩
            · simp only [List.length_append]
              omega
            · rw [hoff', hoff]
              exact map_storeBlock hbytes buf.1
          refine ih hholds ?_
          simp only
          omega

/-- The offset and the padding are more than any buffer has, or than this one. -/
def Short (memOff padding : ℕ) (vars : LoadVars) : Prop :=
  2 ^ 63 ≤ memOff + padding ∨
    (vars.capacity < vars.off + padding ∧ vars.off + padding < 2 ^ 64)

/-- **Without that room a call that returns breaks its promise**: the buffer stays too
small for the padding, whatever is copied. -/
theorem not_keeps_of_short {alloc : Allocator} {memOff padding : ℕ} {stream : FileStream}
    {vars : LoadVars} (hshort : Short memOff padding vars) (hlt : vars.capacity < 2 ^ 63)
    (hoff : memOff ≤ vars.off) (hends : stream.fails = false)
    (hdata : vars.data ≠ none ∨ stream ≠ .eof)
    (hreturns : readBlocks alloc memOff padding stream vars ≠ .exits) (bytes : List UInt8) :
    ¬ (readBlocks alloc memOff padding stream vars).Keeps memOff padding bytes := by
  induction stream generalizing vars with
  | error => cases hends
  | eof =>
      cases hsome : vars.data with
      | none => simp [hsome] at hdata
      | some data =>
          simp only [readBlocks, hsome]
          rintro ⟨hpadding, -, -⟩
          rcases hshort with hlarge | ⟨hcapacity, hsum⟩
          · omega
          · unfold subSize at hpadding
            omega
  | block buf rest ih =>
      rw [readBlocks] at hreturns ⊢
      cases hgrown : makeRoom alloc padding buf.1.length vars with
      | none => simp only [hgrown, ne_eq, not_true_eq_false] at hreturns
      | some grown =>
          obtain ⟨hoff', -, hlt', -⟩ := makeRoom_frame hgrown
          simp only [hgrown] at hreturns ⊢
          cases hdata' : grown.data with
          | none => exact id
          | some data =>
              simp only [hdata'] at hreturns ⊢
              by_cases hinside : grown.off + buf.1.length ≤ grown.capacity
              · have hmod : (grown.off + buf.1.length) % 2 ^ 64 = grown.off + buf.1.length :=
                  Nat.mod_eq_of_lt (by have := hlt' hlt; omega)
                simp only [hinside, if_true, hmod] at hreturns ⊢
                refine ih ?_ (hlt' hlt) ?_ hends (.inl (by simp)) hreturns
                · by_cases hlarge : 2 ^ 63 ≤ memOff + padding
                  · exact .inl hlarge
                  · obtain ⟨hcapacity, hsum⟩ := hshort.resolve_left hlarge
                    have hstays := makeRoom_short hgrown buf.2 hcapacity hsum
                    have hbound := hlt' hlt
                    exact .inr ⟨by simp only; omega, by simp only; omega⟩
                · simp only
                  omega
              · simp only [hinside, if_false]
                exact id

/-! ## Short of room, and far from a wrap -/

/-- The buffer has its first sixteen bytes, too few for the offset and the padding, and what
remains of it comes out as a large number. -/
structure Stuck (padding : ℕ) (vars : LoadVars) : Prop where
  capacity_eq : vars.capacity = 16
  short : 16 < vars.off + padding
  sum_le : vars.off + padding + 48 ≤ 2 ^ 64
  padding_le : padding + 64 ≤ 2 ^ 64

/-- Then every block is taken to fit. -/
theorem makeRoom_stuck {alloc : Allocator} {padding cb : ℕ} {vars : LoadVars}
    (hstuck : Stuck padding vars) (hcb : cb ≤ blockSize) :
    makeRoom alloc padding cb vars = some vars := by
  obtain ⟨hcapacity, hshort, hsum, -⟩ := hstuck
  rw [makeRoom, if_pos]
  rw [remaining_of_lt (by omega) (by omega), hcapacity]
  simp only [blockSize] at hcb
  omega

/-- A block that is copied into the sixteen bytes leaves the loop stuck. -/
theorem Stuck.next {padding cb : ℕ} {vars : LoadVars} (hstuck : Stuck padding vars)
    (hinside : vars.off + cb ≤ vars.capacity) (data : Option (ℕ → UInt8)) :
    Stuck padding { vars with data := data, off := (vars.off + cb) % 2 ^ 64 } := by
  obtain ⟨hcapacity, hshort, hsum, hpadding⟩ := hstuck
  have hmod : (vars.off + cb) % 2 ^ 64 = vars.off + cb := Nat.mod_eq_of_lt (by omega)
  simp only [hmod]
  exact ⟨hcapacity, by simp only; omega, by simp only; omega, hpadding⟩

theorem readBlocks_ne_exits_of_stuck {alloc : Allocator} {memOff padding : ℕ}
    {stream : FileStream} {vars : LoadVars} (hstuck : Stuck padding vars) :
    readBlocks alloc memOff padding stream vars ≠ .exits := by
  induction stream generalizing vars with
  | eof =>
      rw [readBlocks]
      cases vars.data <;> nofun
  | error => nofun
  | block buf rest ih =>
      simp only [readBlocks, makeRoom_stuck hstuck buf.2]
      cases hdata : vars.data with
      | none => nofun
      | some data =>
          simp only
          split_ifs with hinside
          · exact ih (hstuck.next hinside _)
          · nofun

/-- A call that is going to fail keeps its promise as long as it copies into the sixteen
bytes. -/
theorem keeps_iff_of_stuck {alloc : Allocator} {memOff padding : ℕ} {stream : FileStream}
    {vars : LoadVars} (hstuck : Stuck padding vars) (hfails : stream.fails = true)
    (bytes : List UInt8) :
    (readBlocks alloc memOff padding stream vars).Keeps memOff padding bytes ↔
      stream = .error ∨ (vars.data ≠ none ∧ vars.off + stream.bytes.length ≤ 16) := by
  induction stream generalizing vars with
  | eof => cases hfails
  | error => exact iff_of_true trivial (.inl rfl)
  | block buf rest ih =>
      have hcapacity := hstuck.capacity_eq
      simp only [readBlocks, makeRoom_stuck hstuck buf.2]
      cases hdata : vars.data with
      | none => simp [LoadOutcome.Keeps]
      | some data =>
          simp only [FileStream.bytes, List.length_append]
          split_ifs with hinside
          · have hmod : (vars.off + buf.1.length) % 2 ^ 64 = vars.off + buf.1.length :=
              Nat.mod_eq_of_lt (by omega)
            rw [ih (hstuck.next hinside _) hfails]
            simp only [hmod]
            constructor
            · rintro (rfl | ⟨-, hbytes⟩)
              · exact .inr ⟨by simp, by simp only [FileStream.bytes, List.length_nil]; omega⟩
              · exact .inr ⟨by simp, by omega⟩
            · rintro (hblock | ⟨-, hbytes⟩)
              · cases hblock
              · exact .inr ⟨by simp, by omega⟩
          · refine iff_of_false id ?_
            rintro (hblock | ⟨-, hbytes⟩)
            · cases hblock
            · omega

/-- What is copied into the first sixteen bytes is copied into the buffer. -/
theorem keeps_of_inside {alloc : Allocator} {memOff padding : ℕ} {stream : FileStream}
    {vars : LoadVars} (hfails : stream.fails = true) (hdata : vars.data ≠ none)
    (hcapacity : 16 ≤ vars.capacity) (hinside : vars.off + stream.bytes.length ≤ 16)
    (bytes : List UInt8) :
    (readBlocks alloc memOff padding stream vars).Keeps memOff padding bytes := by
  induction stream generalizing vars with
  | eof => cases hfails
  | error => exact trivial
  | block buf rest ih =>
      simp only [FileStream.bytes, List.length_append] at hinside
      rw [readBlocks]
      cases hgrown : makeRoom alloc padding buf.1.length vars with
      | none => exact trivial
      | some grown =>
          obtain ⟨hoff, hle, -, hkept⟩ := makeRoom_frame hgrown
          obtain ⟨data, hsome⟩ := Option.ne_none_iff_exists'.mp hdata
          have hfits : grown.off + buf.1.length ≤ grown.capacity := by omega
          simp only [hkept data hsome, hfits, if_true]
          refine ih hfails (by simp) (by simp only; omega) ?_
          simp only
          omega

section Promise

variable {alloc : Allocator} {memOff padding : ℕ} {stream : FileStream}

theorem holds_loadVars (hmalloc : alloc.malloc = true) :
    Holds memOff [] (loadVars alloc memOff) alloc.fresh :=
  ⟨by simp only [loadVars, hmalloc, if_true], rfl, rfl,
    (by decide : 16 < 2 ^ 63)⟩

/-- A first block that does not fit is read as into a buffer of 32 bytes. -/
theorem makeRoom_grows {cb : ℕ} (hroom : memOff + padding ≤ 16)
    (hgrows : 16 < memOff + padding + cb) :
    makeRoom alloc padding cb (loadVars alloc memOff) =
      if alloc.realloc 32 = true then
        makeRoom alloc padding cb
          ⟨some ((loadVars alloc memOff).data.getD alloc.fresh), 32, memOff⟩
      else none := by
  have hremaining : remaining padding (loadVars alloc memOff) = 16 - memOff - padding :=
    remaining_of_le hroom (by decide : 16 < 2 ^ 64)
  rw [makeRoom, if_neg (by omega)]
  simp only [loadVars, Nat.reduceMul]
  rfl

/-- With room for the offset and the padding, all that can go wrong is `malloc`. -/
theorem keeps_iff_of_le (hroom : memOff + padding ≤ 16) :
    (loadFile alloc memOff padding stream).Keeps memOff padding stream.bytes ↔
      StartsInRoom alloc memOff padding stream ∨ CopiesNothing alloc memOff stream := by
  unfold loadFile
  by_cases hmalloc : alloc.malloc = true
  · refine iff_of_true ?_ (.inl ⟨hroom, .inl hmalloc⟩)
    exact keeps_of_room (holds_loadVars hmalloc) hroom
  · have hnull : (loadVars alloc memOff).data = none := by
      simp only [loadVars, hmalloc]
      rfl
    cases stream with
    | eof =>
        refine iff_of_true ?_ (.inr (.inr (.inl ⟨rfl, Bool.eq_false_iff.mpr hmalloc⟩)))
        simp only [readBlocks, hnull]
        exact trivial
    | error => exact iff_of_true trivial (.inr (.inl rfl))
    | block buf rest =>
        by_cases hgrows : 16 < memOff + padding + buf.1.length
        · refine iff_of_true ?_ (.inl ⟨hroom, .inr ⟨buf, rest, rfl, hgrows⟩⟩)
          rw [readBlocks, makeRoom_grows hroom hgrows]
          split_ifs with hrealloc
          · exact @keeps_of_room alloc memOff padding (.block buf rest) [] _
              ((loadVars alloc memOff).data.getD alloc.fresh)
              ⟨rfl, rfl, rfl, (by decide : 32 < 2 ^ 63)⟩ (by simp only; omega)
          · exact trivial
        · refine iff_of_false ?_ ?_
          · have hfits : buf.1.length ≤ remaining padding (loadVars alloc memOff) := by
              rw [remaining_of_le hroom (by decide : 16 < 2 ^ 64)]
              simp only [loadVars]
              omega
            rw [readBlocks, makeRoom, if_pos hfits]
            simp only [hnull]
            exact id
          · rintro (⟨-, hok | ⟨buf', rest', hstream, hgrows'⟩⟩ | hstream | ⟨hstream, -⟩ |
              ⟨-, hok, -⟩)
            · exact hmalloc hok
            · cases hstream
              exact hgrows hgrows'
            · cases hstream
            · cases hstream
            · exact hmalloc hok

theorem keeps_of_copiesNothing (hnothing : CopiesNothing alloc memOff stream) :
    (loadFile alloc memOff padding stream).Keeps memOff padding stream.bytes := by
  unfold loadFile
  rcases hnothing with rfl | ⟨rfl, hmalloc⟩ | ⟨hfails, hmalloc, hinside⟩
  · exact trivial
  · simp only [readBlocks, loadVars, hmalloc]
    exact trivial
  · refine keeps_of_inside hfails ?_ (Nat.le_refl 16) hinside _
    simp only [loadVars, hmalloc, if_true, ne_eq, reduceCtorEq, not_false_eq_true]

/-- Without that room, what is left are the calls that copy next to nothing. -/
theorem copiesNothing_of_keeps (hshort : 16 < memOff + padding)
    (hreach : memOff + padding + 64 ≤ 2 ^ 64 ∨
      (stream.fails = false ∧ loadFile alloc memOff padding stream ≠ .exits))
    (hkeeps : (loadFile alloc memOff padding stream).Keeps memOff padding stream.bytes) :
    CopiesNothing alloc memOff stream := by
  have hstuck (hsum : memOff + padding + 64 ≤ 2 ^ 64) :
      Stuck padding (loadVars alloc memOff) :=
    ⟨rfl, hshort, by simp only [loadVars]; omega, by omega⟩
  cases hends : stream.fails with
  | true =>
      have hsum := hreach.resolve_right (fun hother => by simp [hends] at hother)
      rcases (keeps_iff_of_stuck (hstuck hsum) hends _).mp hkeeps with rfl | ⟨hdata, hinside⟩
      · exact .inl rfl
      · refine .inr (.inr ⟨hends, ?_, hinside⟩)
        by_contra hmalloc
        exact hdata (by simp only [loadVars, hmalloc]; rfl)
  | false =>
      have hreturns : loadFile alloc memOff padding stream ≠ .exits :=
        hreach.elim (fun hsum => readBlocks_ne_exits_of_stuck (hstuck hsum)) And.right
      by_contra hcopies
      refine @not_keeps_of_short alloc memOff padding stream (loadVars alloc memOff) ?_
        (by decide : 16 < 2 ^ 63) (Nat.le_refl _) hends ?_ hreturns _ hkeeps
      · by_cases hlarge : 2 ^ 63 ≤ memOff + padding
        · exact .inl hlarge
        · exact .inr ⟨hshort, by simp only [loadVars]; omega⟩
      · by_contra hnone
        obtain ⟨hnull, rfl⟩ : (loadVars alloc memOff).data = none ∧ stream = .eof := by
          simpa [not_or] using hnone
        refine hcopies (.inr (.inl ⟨rfl, ?_⟩))
        by_contra hmalloc
        simp [loadVars, hmalloc] at hnull

/-- **When `_load_file` keeps its promise**: the offset and the padding have to fit the
sixteen bytes that it begins with. -/
theorem loadFile_keeps_iff (alloc : Allocator) (memOff padding : ℕ) (stream : FileStream) :
    (StartsInRoom alloc memOff padding stream ∨ CopiesNothing alloc memOff stream →
      (loadFile alloc memOff padding stream).Keeps memOff padding stream.bytes) ∧
    (memOff + padding + 64 ≤ 2 ^ 64 ∨
        (stream.fails = false ∧ loadFile alloc memOff padding stream ≠ .exits) →
      ((loadFile alloc memOff padding stream).Keeps memOff padding stream.bytes ↔
        StartsInRoom alloc memOff padding stream ∨ CopiesNothing alloc memOff stream)) := by
  have hkeeps : StartsInRoom alloc memOff padding stream ∨ CopiesNothing alloc memOff stream →
      (loadFile alloc memOff padding stream).Keeps memOff padding stream.bytes := by
    rintro (hroom | hnothing)
    · exact (keeps_iff_of_le hroom.1).mpr (.inl hroom)
    · exact keeps_of_copiesNothing hnothing
  refine ⟨hkeeps, fun hreach => ⟨fun hkept => ?_, hkeeps⟩⟩
  by_cases hroom : memOff + padding ≤ 16
  · exact (keeps_iff_of_le hroom).mp hkept
  · exact .inr (copiesNothing_of_keeps (by omega) hreach hkept)

end Promise

/-- An allocator that gives all there is. -/
def amply : Allocator where
  malloc := true
  realloc size := decide (0 < size ∧ size < 2 ^ 63)
  fresh _ := 0
  realloc_pos _ hsize := (of_decide_eq_true hsize).1
  realloc_lt _ hsize := (of_decide_eq_true hsize).2

/-- A file of one byte, loaded behind an offset of 17 bytes, is stored behind the buffer. -/
theorem not_loadFile_keeps_offset :
    ¬ (loadFile amply 17 0 (.block ⟨[65], by decide⟩ .eof)).Keeps 17 0 [65] := by
  have hroom : makeRoom amply 0 1 (loadVars amply 17) = some (loadVars amply 17) := by
    rw [makeRoom, if_pos (by decide)]
  simp only [loadFile, readBlocks, List.length_singleton, hroom]
  exact id

end BasC
