/-
# Runs of the UTF-8 decoder

A buffer is read by calling `utf8_decode_code_point` and advancing by `bytes_consumed`. The bytes
that the decoder looks at are recorded here with their addresses. Whatever they are, each call
advances inside the buffer, the calls meet at its end, and no call covers an ASCII byte together
with another one.
-/

import BasC.Lib.Traced
import BasC.Locale.Unicode

namespace BasC

open Lib Traced Lib.Utf8

/-- Read a byte, and record its address. -/
def readByte (memory : ℕ → UInt8) (address : ℕ) : Traced PUnit ℕ UInt8 := do
  emit address
  pure (memory address)

/-- `utf8_decode_code_point` with the addresses that it reads. -/
def utf8DecodeAt (memory : ℕ → UInt8) (ptr stop : ℕ) : Traced PUnit ℕ Decoded :=
  if stop ≤ ptr then pure ⟨-1, 0⟩
  else do
    let b0 ← readByte memory ptr
    if b0.toNat < 0x80 then pure ⟨b0.toNat, 1⟩
    else if b0.toNat &&& 0xE0 = 0xC0 then
      if stop ≤ ptr + 1 then pure malformed
      else do
        let b1 ← readByte memory (ptr + 1)
        if isContinuation b1 then
          pure ⟨((b0.toNat &&& 0x1F) <<< 6 ||| (b1.toNat &&& 0x3F) : ℕ), 2⟩
        else pure malformed
    else if b0.toNat &&& 0xF0 = 0xE0 then
      if stop ≤ ptr + 2 then pure malformed
      else do
        let b1 ← readByte memory (ptr + 1)
        let b2 ← readByte memory (ptr + 2)
        if isContinuation b1 && isContinuation b2 then
          pure ⟨((b0.toNat &&& 0x0F) <<< 12 ||| (b1.toNat &&& 0x3F) <<< 6 |||
            (b2.toNat &&& 0x3F) : ℕ), 3⟩
        else pure malformed
    else if b0.toNat &&& 0xF8 = 0xF0 then
      if stop ≤ ptr + 3 then pure malformed
      else do
        let b1 ← readByte memory (ptr + 1)
        let b2 ← readByte memory (ptr + 2)
        let b3 ← readByte memory (ptr + 3)
        if isContinuation b1 && isContinuation b2 && isContinuation b3 then
          pure ⟨((b0.toNat &&& 0x07) <<< 18 ||| (b1.toNat &&& 0x3F) <<< 12 |||
            (b2.toNat &&& 0x3F) <<< 6 ||| (b3.toNat &&& 0x3F) : ℕ), 4⟩
        else pure malformed
    else pure malformed

section Call

variable (memory : ℕ → UInt8)

theorem result_readByte_bind {α : Type} (address : ℕ) (next : UInt8 → Traced PUnit ℕ α)
    (s : PUnit) :
    (readByte memory address >>= next).result s = (next (memory address)).result s := rfl

/-- The bytes from an address on. -/
def window (ptr length : ℕ) : List UInt8 := (List.range' ptr length).map memory

theorem window_succ (ptr length : ℕ) :
    window memory ptr (length + 1) = memory ptr :: window memory (ptr + 1) length := rfl

theorem length_window (ptr length : ℕ) : (window memory ptr length).length = length := by
  rw [window, List.length_map, List.length_range']

theorem getElem?_window {ptr length i : ℕ} (hi : i < length) :
    (window memory ptr length)[i]? = some (memory (ptr + i)) := by
  rw [window, List.getElem?_map, List.getElem?_range' hi, Option.map_some, Nat.one_mul]

/-- **The decoder decodes the bytes of the buffer.** -/
theorem result_utf8DecodeAt (ptr length : ℕ) :
    (utf8DecodeAt memory ptr (ptr + length)).result ⟨⟩ =
      some (utf8DecodeCodePoint (window memory ptr length), ⟨⟩) := by
  rw [utf8DecodeAt]
  cases length with
  | zero =>
      rw [if_pos (Nat.le_of_eq (Nat.add_zero ptr))]
      rfl
  | succ length =>
      rw [if_neg (by omega), result_readByte_bind, window_succ]
      simp only [utf8DecodeCodePoint]
      by_cases hone : (memory ptr).toNat < 0x80
      · rw [if_pos hone, if_pos hone]
        rfl
      rw [if_neg hone, if_neg hone]
      by_cases htwo : (memory ptr).toNat &&& 0xE0 = 0xC0
      · rw [if_pos htwo, if_pos htwo]
        cases length with
        | zero =>
            rw [if_pos (by omega)]
            rfl
        | succ length =>
            rw [if_neg (by omega), result_readByte_bind, window_succ]
            dsimp only
            split_ifs <;> rfl
      rw [if_neg htwo, if_neg htwo]
      by_cases hthree : (memory ptr).toNat &&& 0xF0 = 0xE0
      · rw [if_pos hthree, if_pos hthree]
        rcases length with _ | _ | length
        · rw [if_pos (by omega)]
          rfl
        · rw [if_pos (by omega)]
          rfl
        · rw [if_neg (by omega), result_readByte_bind, result_readByte_bind, window_succ,
            window_succ]
          dsimp only
          split_ifs <;> rfl
      rw [if_neg hthree, if_neg hthree]
      by_cases hfour : (memory ptr).toNat &&& 0xF8 = 0xF0
      · rw [if_pos hfour, if_pos hfour]
        rcases length with _ | _ | _ | length
        · rw [if_pos (by omega)]
          rfl
        · rw [if_pos (by omega)]
          rfl
        · rw [if_pos (by omega)]
          rfl
        · rw [if_neg (by omega), result_readByte_bind, result_readByte_bind,
            result_readByte_bind, window_succ, window_succ, window_succ]
          dsimp only
          split_ifs <;> rfl
      rw [if_neg hfour, if_neg hfour]
      rfl

/-- The addresses are those of the buffer. -/
def Inside (ptr stop : ℕ) (reads : List ℕ) : Prop :=
  ∀ address ∈ reads, ptr ≤ address ∧ address < stop

theorem composable_inside (ptr stop : ℕ) : Composable (Inside ptr stop) where
  nil := by simp [Inside]
  append := fun hfirst hsecond => List.forall_mem_append.mpr ⟨hfirst, hsecond⟩

theorem leaves_readByte_bind {α : Type} {ptr stop address : ℕ} (hstart : ptr ≤ address)
    (hstop : address < stop) {next : UInt8 → Traced PUnit ℕ α}
    (hnext : ∀ b, (next b).Leaves (Inside ptr stop)) :
    (readByte memory address >>= next).Leaves (Inside ptr stop) := by
  intro s
  exact List.forall_mem_cons.mpr ⟨⟨hstart, hstop⟩, hnext (memory address) s⟩

/-- **No byte at or past the end is read.** -/
theorem leaves_utf8DecodeAt (ptr stop : ℕ) :
    (utf8DecodeAt memory ptr stop).Leaves (Inside ptr stop) := by
  have hpure : ∀ decoded, (pure decoded : Traced PUnit ℕ Decoded).Leaves (Inside ptr stop) :=
    (composable_inside ptr stop).sequential.pure
  unfold utf8DecodeAt
  by_cases hend : stop ≤ ptr
  · rw [if_pos hend]
    exact hpure _
  · rw [if_neg hend]
    refine leaves_readByte_bind memory (Nat.le_refl _) (by omega) fun b0 => ?_
    split_ifs with hone htwo htwo' hthree hthree' hfour hfour'
    · exact hpure _
    · exact hpure _
    · refine leaves_readByte_bind memory (by omega) (by omega) fun b1 => ?_
      split_ifs
      · exact hpure _
      · exact hpure _
    · exact hpure _
    · refine leaves_readByte_bind memory (by omega) (by omega) fun b1 => ?_
      refine leaves_readByte_bind memory (by omega) (by omega) fun b2 => ?_
      split_ifs
      · exact hpure _
      · exact hpure _
    · exact hpure _
    · refine leaves_readByte_bind memory (by omega) (by omega) fun b1 => ?_
      refine leaves_readByte_bind memory (by omega) (by omega) fun b2 => ?_
      refine leaves_readByte_bind memory (by omega) (by omega) fun b3 => ?_
      split_ifs
      · exact hpure _
      · exact hpure _
    · exact hpure _

/-- **A call advances inside the buffer**, by the byte alone if it is ASCII, and otherwise over
bytes that are not. -/
theorem decoded_window {ptr length : ℕ} {decoded : Decoded} (hpos : 0 < length)
    (hdecoded : utf8DecodeCodePoint (window memory ptr length) = decoded) :
    1 ≤ decoded.bytesConsumed ∧ decoded.bytesConsumed ≤ 4 ∧ decoded.bytesConsumed ≤ length ∧
      ((memory ptr).toNat < 0x80 → decoded = ⟨(memory ptr).toNat, 1⟩) ∧
      ∀ i, 0 < i → i < decoded.bytesConsumed → 0x80 ≤ (memory (ptr + i)).toNat := by
  obtain ⟨length, rfl⟩ : ∃ n, length = n + 1 := ⟨length - 1, by omega⟩
  by_cases hstarts : ∃ bytes value, Sequence bytes value ∧ bytes <+: window memory ptr (length + 1)
  · obtain ⟨bytes, value, hsequence, hbegins⟩ := hstarts
    obtain ⟨others, hbuffer⟩ := hbegins
    rw [← hbuffer, utf8DecodeCodePoint_of_sequence hsequence] at hdecoded
    subst hdecoded
    have hfits : bytes.length ≤ length + 1 := by
      rw [← length_window memory ptr (length + 1), ← hbuffer, List.length_append]
      exact Nat.le_add_right _ _
    refine ⟨List.length_pos_iff.mpr hsequence.ne_nil, hsequence.length_le_four, hfits,
      fun hascii => ?_, fun i hi hlt => ?_⟩
    · have hone : [memory ptr] <+: bytes ++ others := by
        rw [hbuffer, window_succ]
        exact ⟨_, rfl⟩
      obtain ⟨rfl, rfl⟩ := hsequence.unique (.one hascii) (List.prefix_append _ _) hone
      rfl
    · have hin : i < length + 1 := hlt.trans_le hfits
      have hbyte : bytes[i]? = some (memory (ptr + i)) := by
        rw [← getElem?_window memory hin, ← hbuffer, List.getElem?_append_left hlt]
      cases bytes with
      | nil => cases hlt
      | cons first rest =>
          obtain ⟨i, rfl⟩ : ∃ n, i = n + 1 := ⟨i - 1, by omega⟩
          rw [List.getElem?_cons_succ] at hbyte
          exact (hsequence.isTail _ (List.mem_of_getElem? hbyte)).1
  · rw [window_succ] at hdecoded hstarts
    rw [utf8DecodeCodePoint_of_no_sequence fun bytes value hsequence hbegins =>
      hstarts ⟨bytes, value, hsequence, hbegins⟩] at hdecoded
    subst hdecoded
    refine ⟨Nat.le_refl 1, by decide, by simp [malformed], fun hascii => ?_, fun i hi hlt => ?_⟩
    · exact absurd ⟨_, _, .one hascii, _, rfl⟩ hstarts
    · exact absurd hlt (by simp only [malformed]; omega)

end Call

/-- Decode and advance until the end, in no more than a number of calls: the address and the
outcome of each. -/
def decodeCalls (memory : ℕ → UInt8) (stop : ℕ) : ℕ → ℕ → Traced PUnit ℕ (List (ℕ × Decoded))
  | 0, _ => pure []
  | calls + 1, ptr =>
      if stop ≤ ptr then pure []
      else do
        let decoded ← utf8DecodeAt memory ptr stop
        let more ← decodeCalls memory stop calls (ptr + decoded.bytesConsumed)
        pure ((ptr, decoded) :: more)

/-- Each call begins where the one before has ended, and the last ends at the end. -/
def Consecutive (stop : ℕ) : ℕ → List (ℕ × Decoded) → Prop
  | ptr, [] => ptr = stop
  | ptr, (address, decoded) :: more =>
      address = ptr ∧ Consecutive stop (ptr + decoded.bytesConsumed) more

/-- What the calls over a buffer are like. -/
structure DecodesBuffer (memory : ℕ → UInt8) (ptr length : ℕ) (calls : List (ℕ × Decoded)) :
    Prop where
  consecutive : Consecutive (ptr + length) ptr calls
  advances : ∀ call ∈ calls, 1 ≤ call.2.bytesConsumed ∧ call.2.bytesConsumed ≤ 4
  length_le : calls.length ≤ length
  ascii : ∀ address, ptr ≤ address → address < ptr + length → (memory address).toNat < 0x80 →
    (address, ⟨(memory address).toNat, 1⟩) ∈ calls

theorem decodesBuffer_empty (memory : ℕ → UInt8) (ptr : ℕ) : DecodesBuffer memory ptr 0 [] :=
  ⟨rfl, by simp, Nat.le_refl 0, fun address hstart hstop => by omega⟩

/-- One more call in front. -/
theorem DecodesBuffer.cons {memory : ℕ → UInt8} {ptr length : ℕ} {decoded : Decoded}
    {calls : List (ℕ × Decoded)} (hpos : 0 < length)
    (hdecoded : utf8DecodeCodePoint (window memory ptr length) = decoded)
    (hcalls : DecodesBuffer memory (ptr + decoded.bytesConsumed) (length - decoded.bytesConsumed)
      calls) : DecodesBuffer memory ptr length ((ptr, decoded) :: calls) := by
  obtain ⟨hone, hfour, hfits, hascii, htail⟩ := decoded_window memory hpos hdecoded
  have hstop : ptr + decoded.bytesConsumed + (length - decoded.bytesConsumed) = ptr + length := by
    omega
  obtain ⟨hconsecutive, hadvances, hlength, hrest⟩ := hcalls
  rw [hstop] at hconsecutive hrest
  refine ⟨⟨rfl, hconsecutive⟩, List.forall_mem_cons.mpr ⟨⟨hone, hfour⟩, hadvances⟩, ?_, ?_⟩
  · rw [List.length_cons]
    omega
  · intro address hstart hend hbyte
    by_cases hlater : ptr + decoded.bytesConsumed ≤ address
    · exact List.mem_cons_of_mem _ (hrest address hlater hend hbyte)
    · -- inside the call there is no ASCII byte but the first
      have hfirst : address = ptr := by
        by_contra hne
        have hhigh := htail (address - ptr) (by omega) (by omega)
        rw [Nat.add_sub_of_le hstart] at hhigh
        omega
      subst hfirst
      rw [hascii hbyte]
      exact List.mem_cons_self

theorem Inside.mono {ptr ptr' stop : ℕ} {reads : List ℕ} (hreads : Inside ptr' stop reads)
    (hle : ptr ≤ ptr') : Inside ptr stop reads :=
  fun address hmem => ⟨hle.trans (hreads address hmem).1, (hreads address hmem).2⟩

theorem leaves_decodeCalls (memory : ℕ → UInt8) (stop calls ptr : ℕ) :
    (decodeCalls memory stop calls ptr).Leaves (Inside ptr stop) := by
  induction calls generalizing ptr with
  | zero => exact fun _ => (composable_inside ptr stop).nil
  | succ calls ih =>
      rw [decodeCalls]
      split_ifs with hend
      · exact fun _ => (composable_inside ptr stop).nil
      · have hsequential := (composable_inside ptr stop).sequential (σ := PUnit)
        refine hsequential.bind (leaves_utf8DecodeAt memory ptr stop) fun decoded => ?_
        refine hsequential.bind (fun s => ?_) fun more => hsequential.pure _
        exact (ih (ptr + decoded.bytesConsumed) s).mono (Nat.le_add_right _ _)

/-- As many calls as there are bytes come to the end. -/
theorem result_decodeCalls (memory : ℕ → UInt8) {ptr length calls : ℕ} (hle : length ≤ calls) :
    ∃ out, (decodeCalls memory (ptr + length) calls ptr).result ⟨⟩ = some (out, ⟨⟩) ∧
      DecodesBuffer memory ptr length out := by
  induction calls generalizing ptr length with
  | zero =>
      obtain rfl : length = 0 := by omega
      exact ⟨[], rfl, decodesBuffer_empty memory ptr⟩
  | succ calls ih =>
      rw [decodeCalls]
      by_cases hend : ptr + length ≤ ptr
      · obtain rfl : length = 0 := by omega
        rw [if_pos hend]
        exact ⟨[], rfl, decodesBuffer_empty memory ptr⟩
      · rw [if_neg hend]
        have hpos : 0 < length := by omega
        obtain ⟨hone, -, hfits, -, -⟩ := decoded_window memory hpos rfl
        generalize hdecoded : utf8DecodeCodePoint (window memory ptr length) = decoded at hone hfits
        have hshorter : length - decoded.bytesConsumed ≤ calls := by omega
        have hstop : ptr + decoded.bytesConsumed + (length - decoded.bytesConsumed) =
            ptr + length := by omega
        obtain ⟨out, hout, hbuffer⟩ := @ih (ptr + decoded.bytesConsumed) _ hshorter
        rw [hstop] at hout
        refine ⟨(ptr, decoded) :: out, ?_, .cons hpos hdecoded hbuffer⟩
        have hcall := result_utf8DecodeAt memory ptr length
        rw [hdecoded] at hcall
        rw [result_bind_of_eq hcall, result_bind_of_eq hout]
        rfl

/-- **Decoding makes progress and swallows no ASCII.** Calls over any buffer read inside it, each
advances by 1 to 4 bytes to where the next one begins, they come to the end after at most as
many calls as there are bytes, and each byte below 0x80 has a call of its own. -/
theorem decodeCalls_decodesBuffer (memory : ℕ → UInt8) (ptr length more : ℕ) :
    Inside ptr (ptr + length)
        ((decodeCalls memory (ptr + length) (length + more) ptr).trace ⟨⟩) ∧
      ∃ calls, (decodeCalls memory (ptr + length) (length + more) ptr).result ⟨⟩ =
          some (calls, ⟨⟩) ∧
        DecodesBuffer memory ptr length calls :=
  ⟨leaves_decodeCalls memory _ _ _ ⟨⟩, result_decodeCalls memory (Nat.le_add_right _ _)⟩

end BasC
