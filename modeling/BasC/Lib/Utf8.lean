/-
# Byte sequences of UTF-8

A lead byte says how many continuation bytes follow, and each of these carries six bits of
the value. This module describes the sequences of that shape, whatever their value, and
determines which of them are the encoding of a Unicode scalar value: those that are not
longer than necessary, no surrogate, and not above 0x10FFFF. No sequence begins another
one, so a text splits into its sequences in one way.
-/

import Mathlib.Data.Char
import Mathlib.Data.Nat.Bitwise

namespace BasC.Lib.Utf8

/-- A continuation byte. -/
def IsTail (b : UInt8) : Prop := 0x80 ≤ b.toNat ∧ b.toNat < 0xC0

/-- A lead byte with its continuation bytes, and the value they carry. -/
inductive Sequence : List UInt8 → ℕ → Prop
  | one {a : UInt8} : a.toNat < 0x80 → Sequence [a] a.toNat
  | two {a b : UInt8} : 0xC0 ≤ a.toNat → a.toNat < 0xE0 → IsTail b →
      Sequence [a, b] ((a.toNat - 0xC0) * 64 + (b.toNat - 0x80))
  | three {a b c : UInt8} : 0xE0 ≤ a.toNat → a.toNat < 0xF0 → IsTail b → IsTail c →
      Sequence [a, b, c] ((a.toNat - 0xE0) * 4096 + (b.toNat - 0x80) * 64 + (c.toNat - 0x80))
  | four {a b c d : UInt8} : 0xF0 ≤ a.toNat → a.toNat < 0xF8 → IsTail b → IsTail c → IsTail d →
      Sequence [a, b, c, d]
        ((a.toNat - 0xF0) * 262144 + (b.toNat - 0x80) * 4096 + (c.toNat - 0x80) * 64 +
          (d.toNat - 0x80))

/-- The sequences that encode no scalar value: longer than necessary, a surrogate, or above
0x10FFFF. -/
def illFormed : List UInt8 → Bool
  | [a, _] => a.toNat < 0xC2
  | [a, b, _] => (a.toNat = 0xE0 && b.toNat < 0xA0) || (a.toNat = 0xED && 0xA0 ≤ b.toNat)
  | [a, b, _, _] =>
      (a.toNat = 0xF0 && b.toNat < 0x90) || (a.toNat = 0xF4 && 0x90 ≤ b.toNat) || 0xF4 < a.toNat
  | _ => false

/-- A property of all bytes, checked byte by byte. -/
theorem forall_byte {P : ℕ → Prop} (hall : ∀ n < 256, P n) (b : UInt8) : P b.toNat :=
  hall b.toNat b.toNat_lt

theorem lead_two_iff (b : UInt8) :
    b.toNat &&& 0xE0 = 0xC0 ↔ 0xC0 ≤ b.toNat ∧ b.toNat < 0xE0 :=
  forall_byte (P := fun n => n &&& 0xE0 = 0xC0 ↔ 0xC0 ≤ n ∧ n < 0xE0) (by decide +kernel) b

theorem lead_three_iff (b : UInt8) :
    b.toNat &&& 0xF0 = 0xE0 ↔ 0xE0 ≤ b.toNat ∧ b.toNat < 0xF0 :=
  forall_byte (P := fun n => n &&& 0xF0 = 0xE0 ↔ 0xE0 ≤ n ∧ n < 0xF0) (by decide +kernel) b

theorem lead_four_iff (b : UInt8) :
    b.toNat &&& 0xF8 = 0xF0 ↔ 0xF0 ≤ b.toNat ∧ b.toNat < 0xF8 :=
  forall_byte (P := fun n => n &&& 0xF8 = 0xF0 ↔ 0xF0 ≤ n ∧ n < 0xF8) (by decide +kernel) b

theorem tail_iff (b : UInt8) : b.toNat &&& 0xC0 = 0x80 ↔ IsTail b :=
  forall_byte (P := fun n => n &&& 0xC0 = 0x80 ↔ 0x80 ≤ n ∧ n < 0xC0) (by decide +kernel) b

theorem and_0x3F (n : ℕ) : n &&& 0x3F = n % 64 := Nat.and_two_pow_sub_one_eq_mod n 6

theorem and_0x1F (n : ℕ) : n &&& 0x1F = n % 32 := Nat.and_two_pow_sub_one_eq_mod n 5

theorem and_0x0F (n : ℕ) : n &&& 0x0F = n % 16 := Nat.and_two_pow_sub_one_eq_mod n 4

theorem and_0x07 (n : ℕ) : n &&& 0x07 = n % 8 := Nat.and_two_pow_sub_one_eq_mod n 3

/-- Putting bits below others is adding them. -/
theorem shiftLeft_or (high low width : ℕ) (hlow : low < 2 ^ width) :
    high <<< width ||| low = high * 2 ^ width + low := by
  rw [← Nat.shiftLeft_add_eq_or_of_lt hlow, Nat.shiftLeft_eq]

/-- Setting bits below a marker is adding them. -/
theorem or_eq_add {marker low width high : ℕ} (hmarker : marker = 2 ^ width * high)
    (hlow : low < 2 ^ width) : marker ||| low = marker + low := by
  subst hmarker
  exact (Nat.two_pow_add_eq_or_of_lt hlow high).symm

theorem Sequence.ne_nil {bytes : List UInt8} {value : ℕ} (h : Sequence bytes value) :
    bytes ≠ [] := by
  cases h <;> simp

/-- The lead byte determines the length. -/
theorem Sequence.length_eq {first : UInt8} {rest : List UInt8} {value : ℕ}
    (h : Sequence (first :: rest) value) :
    rest.length + 1 = if first.toNat < 0x80 then 1 else if first.toNat < 0xE0 then 2
      else if first.toNat < 0xF0 then 3 else 4 := by
  cases h <;> simp only [List.length_cons, List.length_nil] <;> split_ifs <;> omega

theorem Sequence.length_le_four {bytes : List UInt8} {value : ℕ} (h : Sequence bytes value) :
    bytes.length ≤ 4 := by
  cases h <;> simp

/-- Behind the lead byte there are continuation bytes. -/
theorem Sequence.isTail {first : UInt8} {rest : List UInt8} {value : ℕ}
    (h : Sequence (first :: rest) value) : ∀ b ∈ rest, IsTail b := by
  cases h <;> simp_all

/-- The bytes determine the value. -/
theorem Sequence.value_unique {bytes : List UInt8} {first second : ℕ}
    (hfirst : Sequence bytes first) (hsecond : Sequence bytes second) : first = second := by
  cases hfirst <;> cases hsecond <;> rfl

/-- **At most one sequence begins a buffer.** -/
theorem Sequence.unique {bytes bytes' buffer : List UInt8} {value value' : ℕ}
    (h : Sequence bytes value) (h' : Sequence bytes' value') (hbegins : bytes <+: buffer)
    (hbegins' : bytes' <+: buffer) : bytes = bytes' ∧ value = value' := by
  obtain ⟨rest, rfl⟩ := hbegins
  have hlength : bytes.length = bytes'.length := by
    cases bytes with
    | nil => exact absurd rfl h.ne_nil
    | cons first others =>
        cases bytes' with
        | nil => exact absurd rfl h'.ne_nil
        | cons first' others' =>
            obtain rfl : first' = first := (List.cons_prefix_cons.mp hbegins').1
            rw [List.length_cons, List.length_cons, h.length_eq, h'.length_eq]
  obtain rfl : bytes' = bytes :=
    (List.append_inj (hbegins'.choose_spec) hlength.symm).1
  exact ⟨rfl, h.value_unique h'⟩

theorem toNat_ofNat_of_lt {n : ℕ} (hn : n < 256) : (UInt8.ofNat n).toNat = n := by
  rw [UInt8.toNat_ofNat']
  exact Nat.mod_eq_of_lt hn

/-- The encoding with the value as a number. -/
theorem utf8EncodeChar_eq (c : Char) :
    String.utf8EncodeChar c =
      if c.toNat ≤ 0x7F then [UInt8.ofNat c.toNat]
      else if c.toNat ≤ 0x7FF then
        [UInt8.ofNat (c.toNat / 64 % 32 + 0xC0), UInt8.ofNat (c.toNat % 64 + 0x80)]
      else if c.toNat ≤ 0xFFFF then
        [UInt8.ofNat (c.toNat / 4096 % 16 + 0xE0), UInt8.ofNat (c.toNat / 64 % 64 + 0x80),
          UInt8.ofNat (c.toNat % 64 + 0x80)]
      else
        [UInt8.ofNat (c.toNat / 262144 % 8 + 0xF0), UInt8.ofNat (c.toNat / 4096 % 64 + 0x80),
          UInt8.ofNat (c.toNat / 64 % 64 + 0x80), UInt8.ofNat (c.toNat % 64 + 0x80)] := rfl

/-- Scalar values are at most 0x10FFFF, and no surrogates. -/
theorem toNat_range (c : Char) :
    c.toNat < 0xD800 ∨ 0xDFFF < c.toNat ∧ c.toNat < 0x110000 := c.valid

/-- **Encodings are sequences that carry their value.** -/
theorem sequence_utf8EncodeChar (c : Char) : Sequence (String.utf8EncodeChar c) c.toNat := by
  have hrange := toNat_range c
  rw [utf8EncodeChar_eq]
  generalize c.toNat = n at hrange
  have htail : ∀ m, IsTail (UInt8.ofNat (m % 64 + 0x80)) := by
    intro m
    unfold IsTail
    rw [toNat_ofNat_of_lt (by omega)]
    omega
  split_ifs with hone htwo hthree
  · have hbyte := toNat_ofNat_of_lt (n := n) (by omega)
    have hseq := Sequence.one (a := UInt8.ofNat n) (by omega)
    rwa [hbyte] at hseq
  · have hseq := Sequence.two (a := UInt8.ofNat (n / 64 % 32 + 0xC0))
      (by rw [toNat_ofNat_of_lt (by omega)]; omega)
      (by rw [toNat_ofNat_of_lt (by omega)]; omega) (htail n)
    rw [toNat_ofNat_of_lt (by omega), toNat_ofNat_of_lt (by omega)] at hseq
    convert hseq using 1
    omega
  · have hseq := Sequence.three (a := UInt8.ofNat (n / 4096 % 16 + 0xE0))
      (by rw [toNat_ofNat_of_lt (by omega)]; omega)
      (by rw [toNat_ofNat_of_lt (by omega)]; omega) (htail (n / 64)) (htail n)
    rw [toNat_ofNat_of_lt (by omega), toNat_ofNat_of_lt (by omega),
      toNat_ofNat_of_lt (by omega)] at hseq
    convert hseq using 1
    omega
  · have hseq := Sequence.four (a := UInt8.ofNat (n / 262144 % 8 + 0xF0))
      (by rw [toNat_ofNat_of_lt (by omega)]; omega)
      (by rw [toNat_ofNat_of_lt (by omega)]; omega) (htail (n / 4096)) (htail (n / 64)) (htail n)
    rw [toNat_ofNat_of_lt (by omega), toNat_ofNat_of_lt (by omega),
      toNat_ofNat_of_lt (by omega), toNat_ofNat_of_lt (by omega)] at hseq
    convert hseq using 1
    omega

theorem length_utf8EncodeChar_eq (c : Char) :
    (String.utf8EncodeChar c).length =
      if c.toNat ≤ 0x7F then 1 else if c.toNat ≤ 0x7FF then 2 else if c.toNat ≤ 0xFFFF then 3
        else 4 := by
  rw [utf8EncodeChar_eq]
  split_ifs <;> rfl

/-- The ill-formed sequences by their values. -/
theorem Sequence.illFormed_iff {bytes : List UInt8} {value : ℕ} (h : Sequence bytes value) :
    illFormed bytes = true ↔
      bytes.length = 2 ∧ value < 0x80 ∨
        bytes.length = 3 ∧ (value < 0x800 ∨ 0xD800 ≤ value ∧ value ≤ 0xDFFF) ∨
          bytes.length = 4 ∧ (value < 0x10000 ∨ 0x10FFFF < value) := by
  cases h with
  | one ha => simp [illFormed]
  | two ha ha' hb =>
      unfold IsTail at hb
      simp [illFormed]
      omega
  | three ha ha' hb hc =>
      unfold IsTail at hb hc
      simp [illFormed]
      omega
  | four ha ha' hb hc hd =>
      unfold IsTail at hb hc hd
      simp [illFormed]
      omega

/-- Sequences of one length with one value have the same bytes. -/
theorem Sequence.bytes_unique {bytes bytes' : List UInt8} {value : ℕ} (h : Sequence bytes value)
    (h' : Sequence bytes' value) (hlength : bytes.length = bytes'.length) : bytes = bytes' := by
  generalize hvalue : value = value' at h'
  cases h <;> cases h' <;> simp only [List.length_cons, List.length_nil] at hlength <;>
    first
    | omega
    | simp only [IsTail, List.cons.injEq, and_true, ← UInt8.toNat_inj] at *
      omega

/-- The value of a sequence is below the bound of its length. -/
theorem Sequence.value_lt {bytes : List UInt8} {value : ℕ} (h : Sequence bytes value) :
    bytes.length = 1 ∧ value < 0x80 ∨ bytes.length = 2 ∧ value < 0x800 ∨
      bytes.length = 3 ∧ value < 0x10000 ∨ bytes.length = 4 ∧ value < 0x200000 := by
  cases h with
  | one ha => simp [ha]
  | two ha ha' hb =>
      unfold IsTail at hb
      simp
      omega
  | three ha ha' hb hc =>
      unfold IsTail at hb hc
      simp
      omega
  | four ha ha' hb hc hd =>
      unfold IsTail at hb hc hd
      simp
      omega

/-- **The sequences that are encodings** are those that are not ill-formed. -/
theorem Sequence.encodes_iff {bytes : List UInt8} {value : ℕ} (h : Sequence bytes value) :
    (∃ c : Char, c.toNat = value ∧ String.utf8EncodeChar c = bytes) ↔ illFormed bytes = false := by
  constructor
  · rintro ⟨c, rfl, rfl⟩
    have hlength := length_utf8EncodeChar_eq c
    have hrange := toNat_range c
    by_contra hill
    have hbad := h.illFormed_iff.mp (by simpa using hill)
    split_ifs at hlength <;> omega
  · intro hwell
    have hbound := h.value_lt
    have hgood : ¬ illFormed bytes = true := by simp [hwell]
    rw [h.illFormed_iff] at hgood
    have hvalid : value.isValidChar := by
      unfold Nat.isValidChar
      omega
    have hvalue : (Char.ofNat value).toNat = value := by
      rw [Char.ofNat, dif_pos hvalid]
      rfl
    refine ⟨Char.ofNat value, hvalue, ?_⟩
    have hsequence := sequence_utf8EncodeChar (Char.ofNat value)
    have hlength := length_utf8EncodeChar_eq (Char.ofNat value)
    rw [hvalue] at hsequence hlength
    apply hsequence.bytes_unique h
    rw [hlength]
    split_ifs <;> omega

end BasC.Lib.Utf8
