/-
# Code points and their UTF-8 bytes

`utf8_decode_code_point` and `utf8_encode_code_point` of `unicode.c`. A buffer `[ptr, end)`
is the list of its bytes, and a byte takes part in the bit operations with its `int` value.

The decoder looks at the shape of a sequence and never at its value. This module determines
the buffers on which it accepts exactly well-formed UTF-8, and proves that it undoes the
encoder on whole texts.
-/

import BasC.Lib.Utf8

namespace BasC

open Lib.Utf8

/-- The return value of `utf8_decode_code_point` and its `bytes_consumed`. -/
structure Decoded where
  ret : ℤ
  bytesConsumed : ℕ
  deriving DecidableEq

/-- What is returned for a malformed sequence. -/
def malformed : Decoded := ⟨-2, 1⟩

/-- `(b & 0xC0) == 0x80`. -/
def isContinuation (b : UInt8) : Bool := b.toNat &&& 0xC0 = 0x80

/-- `utf8_decode_code_point`. -/
def utf8DecodeCodePoint : List UInt8 → Decoded
  | [] => ⟨-1, 0⟩
  | b0 :: rest =>
      if b0.toNat < 0x80 then ⟨b0.toNat, 1⟩
      else if b0.toNat &&& 0xE0 = 0xC0 then
        match rest with
        | b1 :: _ =>
            if isContinuation b1 then
              ⟨((b0.toNat &&& 0x1F) <<< 6 ||| (b1.toNat &&& 0x3F) : ℕ), 2⟩
            else malformed
        | [] => malformed
      else if b0.toNat &&& 0xF0 = 0xE0 then
        match rest with
        | b1 :: b2 :: _ =>
            if isContinuation b1 && isContinuation b2 then
              ⟨((b0.toNat &&& 0x0F) <<< 12 ||| (b1.toNat &&& 0x3F) <<< 6 |||
                (b2.toNat &&& 0x3F) : ℕ), 3⟩
            else malformed
        | _ => malformed
      else if b0.toNat &&& 0xF8 = 0xF0 then
        match rest with
        | b1 :: b2 :: b3 :: _ =>
            if isContinuation b1 && isContinuation b2 && isContinuation b3 then
              ⟨((b0.toNat &&& 0x07) <<< 18 ||| (b1.toNat &&& 0x3F) <<< 12 |||
                (b2.toNat &&& 0x3F) <<< 6 ||| (b3.toNat &&& 0x3F) : ℕ), 4⟩
            else malformed
        | _ => malformed
      else malformed

/-- `utf8_encode_code_point`: the bytes written to `out`, of which there are `out_len`; `none`
is a return value of 0. -/
def utf8EncodeCodePoint (cp : ℤ) : Option (List UInt8) :=
  if cp < 0 ∨ cp > 0x10FFFF then none
  else
    let n := cp.toNat
    if cp < 0x80 then some [UInt8.ofNat n]
    else if cp < 0x800 then
      some [UInt8.ofNat (0xC0 ||| n >>> 6), UInt8.ofNat (0x80 ||| (n &&& 0x3F))]
    else if cp < 0x10000 then
      some [UInt8.ofNat (0xE0 ||| n >>> 12), UInt8.ofNat (0x80 ||| (n >>> 6 &&& 0x3F)),
        UInt8.ofNat (0x80 ||| (n &&& 0x3F))]
    else
      some [UInt8.ofNat (0xF0 ||| n >>> 18), UInt8.ofNat (0x80 ||| (n >>> 12 &&& 0x3F)),
        UInt8.ofNat (0x80 ||| (n >>> 6 &&& 0x3F)), UInt8.ofNat (0x80 ||| (n &&& 0x3F))]

theorem isContinuation_iff (b : UInt8) : isContinuation b = true ↔ IsTail b := by
  rw [isContinuation, decide_eq_true_iff, tail_iff]

/-- **A sequence at the start is decoded to its value.** -/
theorem utf8DecodeCodePoint_of_sequence {bytes : List UInt8} {value : ℕ}
    (h : Sequence bytes value) (rest : List UInt8) :
    utf8DecodeCodePoint (bytes ++ rest) = ⟨value, bytes.length⟩ := by
  cases h with
  | one ha => simp [utf8DecodeCodePoint, ha]
  | @two a b ha ha' hb =>
      have hone : ¬ a.toNat < 0x80 := by omega
      have htwo := (lead_two_iff a).mpr ⟨ha, ha'⟩
      have hvalue : (a.toNat &&& 0x1F) <<< 6 ||| (b.toNat &&& 0x3F) =
          (a.toNat - 0xC0) * 64 + (b.toNat - 0x80) := by
        unfold IsTail at hb
        rw [and_0x1F, and_0x3F, shiftLeft_or _ (b.toNat % 64) 6 (Nat.mod_lt _ (by decide))]
        omega
      simp only [List.cons_append, List.nil_append, utf8DecodeCodePoint, if_neg hone, if_pos htwo,
        (isContinuation_iff b).mpr hb, if_true, hvalue]
      rfl
  | @three a b c ha ha' hb hc =>
      have hone : ¬ a.toNat < 0x80 := by omega
      have htwo : ¬ a.toNat &&& 0xE0 = 0xC0 := by rw [lead_two_iff]; omega
      have hthree := (lead_three_iff a).mpr ⟨ha, ha'⟩
      have hvalue : (a.toNat &&& 0x0F) <<< 12 ||| (b.toNat &&& 0x3F) <<< 6 ||| (c.toNat &&& 0x3F) =
          (a.toNat - 0xE0) * 4096 + (b.toNat - 0x80) * 64 + (c.toNat - 0x80) := by
        unfold IsTail at hb hc
        rw [Nat.or_assoc, and_0x0F, and_0x3F, and_0x3F,
          shiftLeft_or (b.toNat % 64) (c.toNat % 64) 6 (Nat.mod_lt _ (by decide)),
          shiftLeft_or _ _ 12 (by omega)]
        omega
      simp only [List.cons_append, List.nil_append, utf8DecodeCodePoint, if_neg hone, if_neg htwo,
        if_pos hthree, (isContinuation_iff b).mpr hb, (isContinuation_iff c).mpr hc, Bool.and_self,
        if_true, hvalue]
      rfl
  | @four a b c d ha ha' hb hc hd =>
      have hone : ¬ a.toNat < 0x80 := by omega
      have htwo : ¬ a.toNat &&& 0xE0 = 0xC0 := by rw [lead_two_iff]; omega
      have hthree : ¬ a.toNat &&& 0xF0 = 0xE0 := by rw [lead_three_iff]; omega
      have hfour := (lead_four_iff a).mpr ⟨ha, ha'⟩
      have hvalue : (a.toNat &&& 0x07) <<< 18 ||| (b.toNat &&& 0x3F) <<< 12 |||
          (c.toNat &&& 0x3F) <<< 6 ||| (d.toNat &&& 0x3F) =
          (a.toNat - 0xF0) * 262144 + (b.toNat - 0x80) * 4096 + (c.toNat - 0x80) * 64 +
            (d.toNat - 0x80) := by
        unfold IsTail at hb hc hd
        rw [Nat.or_assoc, Nat.or_assoc, and_0x07, and_0x3F, and_0x3F, and_0x3F,
          shiftLeft_or (c.toNat % 64) (d.toNat % 64) 6 (Nat.mod_lt _ (by decide)),
          shiftLeft_or (b.toNat % 64) _ 12 (by omega), shiftLeft_or _ _ 18 (by omega)]
        omega
      simp only [List.cons_append, List.nil_append, utf8DecodeCodePoint, if_neg hone, if_neg htwo,
        if_neg hthree, if_pos hfour, (isContinuation_iff b).mpr hb, (isContinuation_iff c).mpr hc,
        (isContinuation_iff d).mpr hd, Bool.and_self, if_true, hvalue]
      rfl

/-- **Without a sequence at the start, the buffer is malformed.** -/
theorem utf8DecodeCodePoint_of_no_sequence {first : UInt8} {rest : List UInt8}
    (hnone : ∀ bytes value, Sequence bytes value → ¬ bytes <+: first :: rest) :
    utf8DecodeCodePoint (first :: rest) = malformed := by
  simp only [utf8DecodeCodePoint]
  split_ifs with hone htwo hthree hfour
  · exact absurd ⟨rest, rfl⟩ (hnone _ _ (.one hone))
  · rw [lead_two_iff] at htwo
    split
    · rename_i b1 rest
      split_ifs with htail
      · rw [isContinuation_iff] at htail
        exact absurd ⟨rest, rfl⟩ (hnone _ _ (.two htwo.1 htwo.2 htail))
      · rfl
    · rfl
  · rw [lead_three_iff] at hthree
    split
    · rename_i b1 b2 rest
      split_ifs with htail
      · rw [Bool.and_eq_true, isContinuation_iff, isContinuation_iff] at htail
        exact absurd ⟨rest, rfl⟩ (hnone _ _ (.three hthree.1 hthree.2 htail.1 htail.2))
      · rfl
    · rfl
  · rw [lead_four_iff] at hfour
    split
    · rename_i b1 b2 b3 rest
      split_ifs with htail
      · rw [Bool.and_eq_true, Bool.and_eq_true, isContinuation_iff, isContinuation_iff,
          isContinuation_iff] at htail
        exact absurd ⟨rest, rfl⟩
          (hnone _ _ (.four hfour.1 hfour.2 htail.1.1 htail.1.2 htail.2))
      · rfl
    · rfl
  · rfl

/-- **Scalar values are encoded to their UTF-8 bytes.** -/
theorem utf8EncodeCodePoint_eq (c : Char) :
    utf8EncodeCodePoint c.toNat = some (String.utf8EncodeChar c) := by
  have hrange := toNat_range c
  rw [utf8EncodeChar_eq]
  generalize c.toNat = n at hrange
  have htail : ∀ m, 0x80 ||| (m &&& 0x3F) = m % 64 + 0x80 := by
    intro m
    have hlow : m % 64 < 2 ^ 6 := Nat.mod_lt _ (by decide)
    rw [and_0x3F, or_eq_add (show 0x80 = 2 ^ 6 * 2 from rfl) hlow]
    exact Nat.add_comm _ _
  have hinside : ¬ ((n : ℤ) < 0 ∨ (n : ℤ) > 0x10FFFF) := by omega
  simp only [utf8EncodeCodePoint, if_neg hinside, Int.toNat_natCast, htail,
    Nat.shiftRight_eq_div_pow]
  split_ifs <;> try omega
  · rfl
  · rw [or_eq_add (show 0xC0 = 2 ^ 6 * 3 from rfl) (by omega)]
    congr 3
    omega
  · rw [or_eq_add (show 0xE0 = 2 ^ 5 * 7 from rfl) (by omega)]
    congr 3
    omega
  · rw [or_eq_add (show 0xF0 = 2 ^ 4 * 15 from rfl) (by omega)]
    congr 3
    omega

/-- The decoder accepts exactly the well-formed sequences at the start of the buffer, with
their values, so that these bytes are what the encoder makes of the value; on any other
buffer it returns -2 and consumes something. -/
structure DecodesExactly (buffer : List UInt8) : Prop where
  accepts : ∀ (n : ℤ) (k : ℕ), 0 ≤ n → (utf8DecodeCodePoint buffer = ⟨n, k⟩ ↔
    ∃ c : Char, (c.toNat : ℤ) = n ∧ (String.utf8EncodeChar c).length = k ∧
      String.utf8EncodeChar c <+: buffer)
  encodes : 0 ≤ (utf8DecodeCodePoint buffer).ret →
    utf8EncodeCodePoint (utf8DecodeCodePoint buffer).ret =
      some (buffer.take (utf8DecodeCodePoint buffer).bytesConsumed)
  rejects : (∀ c : Char, ¬ String.utf8EncodeChar c <+: buffer) →
    (utf8DecodeCodePoint buffer).ret = -2 ∧ 0 < (utf8DecodeCodePoint buffer).bytesConsumed

/-- The buffer begins with a complete sequence that is longer than necessary, a surrogate,
or above 0x10FFFF. -/
def StartsIllFormed (buffer : List UInt8) : Prop :=
  ∃ bytes value, Sequence bytes value ∧ bytes <+: buffer ∧ illFormed bytes = true

/-- **When the decoder accepts exactly well-formed UTF-8.** On a non-empty buffer it does
unless the buffer begins with an ill-formed sequence. -/
theorem decodesExactly_iff (first : UInt8) (rest : List UInt8) :
    DecodesExactly (first :: rest) ↔ ¬ StartsIllFormed (first :: rest) := by
  constructor
  · rintro hexact ⟨bytes, value, hsequence, ⟨others, hbuffer⟩, hill⟩
    -- The decoder accepts the sequence, so some character would have these bytes.
    have hdecoded := utf8DecodeCodePoint_of_sequence hsequence others
    rw [hbuffer] at hdecoded
    obtain ⟨c, hvalue, -, hbegins⟩ := (hexact.accepts value _ (by omega)).mp hdecoded
    have hsame := (sequence_utf8EncodeChar c).unique hsequence hbegins ⟨others, hbuffer⟩
    have hwell := hsequence.encodes_iff.mp ⟨c, hsame.2, hsame.1⟩
    rw [hwell] at hill
    cases hill
  · intro hwell
    by_cases hstarts : ∃ bytes value, Sequence bytes value ∧ bytes <+: first :: rest
    · obtain ⟨bytes, value, hsequence, others, hbuffer⟩ := hstarts
      have hgood : illFormed bytes = false := by
        by_contra hill
        exact hwell ⟨bytes, value, hsequence, ⟨others, hbuffer⟩, by simpa using hill⟩
      obtain ⟨c, rfl, rfl⟩ := hsequence.encodes_iff.mpr hgood
      have hdecoded := utf8DecodeCodePoint_of_sequence hsequence others
      rw [hbuffer] at hdecoded
      refine ⟨fun n k _ => ?_, fun _ => ?_, fun hnone => absurd ⟨others, hbuffer⟩ (hnone c)⟩
      · rw [hdecoded, Decoded.mk.injEq]
        constructor
        · rintro ⟨rfl, rfl⟩
          exact ⟨c, rfl, rfl, others, hbuffer⟩
        · rintro ⟨d, rfl, rfl, hbegins⟩
          have hsame := hsequence.unique (sequence_utf8EncodeChar d) ⟨others, hbuffer⟩ hbegins
          rw [hsame.1, hsame.2]
          exact ⟨rfl, rfl⟩
      · rw [hdecoded, utf8EncodeCodePoint_eq, ← hbuffer, List.take_left]
    · have hnone : ∀ bytes value, Sequence bytes value → ¬ bytes <+: first :: rest :=
        fun bytes value hsequence hbegins => hstarts ⟨bytes, value, hsequence, hbegins⟩
      have hdecoded := utf8DecodeCodePoint_of_no_sequence hnone
      refine ⟨fun n k hn => ?_, fun hret => ?_, fun _ => ?_⟩
      · rw [hdecoded]
        constructor
        · intro heq
          have hret : (-2 : ℤ) = n := congrArg Decoded.ret heq
          omega
        · rintro ⟨c, -, -, hbegins⟩
          exact absurd hbegins (hnone _ _ (sequence_utf8EncodeChar c))
      · rw [hdecoded] at hret
        exact absurd hret (by decide)
      · rw [hdecoded]
        decide

/-- The two bytes `C0 80` are accepted as an overlong NUL. -/
theorem not_decodesExactly_overlong : ¬ DecodesExactly [0xC0, 0x80] := by
  intro hexact
  obtain ⟨c, hvalue, hlength, hbegins⟩ :=
    (hexact.accepts 0 2 (by decide)).mp (by decide +kernel)
  rw [length_utf8EncodeChar_eq, if_pos (by omega)] at hlength
  cases hlength

/-- Something is consumed unless the buffer is at its end. -/
theorem bytesConsumed_pos {buffer : List UInt8} (hret : (utf8DecodeCodePoint buffer).ret ≠ -1) :
    0 < (utf8DecodeCodePoint buffer).bytesConsumed ∧ buffer ≠ [] := by
  by_cases hstarts : ∃ bytes value, Sequence bytes value ∧ bytes <+: buffer
  · obtain ⟨bytes, value, hsequence, rest, rfl⟩ := hstarts
    rw [utf8DecodeCodePoint_of_sequence hsequence]
    exact ⟨List.length_pos_iff.mpr hsequence.ne_nil, by simp [hsequence.ne_nil]⟩
  · cases buffer with
    | nil => exact absurd rfl hret
    | cons first rest =>
        rw [utf8DecodeCodePoint_of_no_sequence fun bytes value hsequence hbegins =>
          hstarts ⟨bytes, value, hsequence, hbegins⟩]
        exact ⟨by decide, by simp⟩

/-- Decode until -1 is returned: the values before it, and the offset at which it is
returned. -/
def decodeText (buffer : List UInt8) : List ℤ × ℕ :=
  let decoded := utf8DecodeCodePoint buffer
  if _hend : decoded.ret = -1 then ([], 0)
  else
    let more := decodeText (buffer.drop decoded.bytesConsumed)
    (decoded.ret :: more.1, decoded.bytesConsumed + more.2)
termination_by buffer.length
decreasing_by
  obtain ⟨hpos, hne⟩ := bytesConsumed_pos _hend
  rw [List.length_drop]
  have hlength := List.length_pos_iff.mpr hne
  omega

/-- The bytes that the encoder writes for a list of scalar values. -/
def encodeText (text : List Char) : List UInt8 :=
  text.flatMap fun c => (utf8EncodeCodePoint c.toNat).getD []

/-- One character in front of a text is decoded first. -/
theorem decodeText_encode_append (c : Char) (rest : List UInt8) :
    decodeText (String.utf8EncodeChar c ++ rest) =
      ((c.toNat : ℤ) :: (decodeText rest).1,
        (String.utf8EncodeChar c).length + (decodeText rest).2) := by
  have hdecoded := utf8DecodeCodePoint_of_sequence (sequence_utf8EncodeChar c) rest
  have hret : ((c.toNat : ℤ)) ≠ -1 := by omega
  rw [decodeText]
  simp only [hdecoded, hret, dite_false, List.drop_left]

/-- **Decoding undoes encoding.** Every scalar value of a text is encoded, and decoding the
bytes gives the text back and ends at their end. -/
theorem decodeText_encodeText (text : List Char) :
    (∀ c ∈ text, (utf8EncodeCodePoint c.toNat).isSome) ∧
      decodeText (encodeText text) =
        (text.map fun c => (c.toNat : ℤ), (encodeText text).length) := by
  refine ⟨fun c _ => by simp [utf8EncodeCodePoint_eq], ?_⟩
  induction text with
  | nil => simp [encodeText, decodeText, utf8DecodeCodePoint]
  | cons c text ih =>
      have hcons : encodeText (c :: text) = String.utf8EncodeChar c ++ encodeText text := by
        simp [encodeText, utf8EncodeCodePoint_eq]
      rw [hcons, decodeText_encode_append, ih, List.length_append]
      rfl

end BasC
