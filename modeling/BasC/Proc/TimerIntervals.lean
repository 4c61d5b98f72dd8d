/-
# Intervals at the keyboard

An interval is a decimal number, blanks, and a unit: nothing, `ms`, or `s`. What
`parse_interval_ms` takes besides comes from `strtoul`, which passes over white space and a sign,
and from its last line, which returns the number whatever follows it.
-/

import BasC.Proc.Timer

namespace BasC

open CChar

/-- The units, and how many milliseconds each has. -/
inductive IntervalUnit : CString → ℕ → Prop
  | none : IntervalUnit [] 1
  | ms : IntervalUnit (cstr "ms") 1
  | mS : IntervalUnit (cstr "mS") 1
  | s : IntervalUnit (cstr "s") 1000
  | S : IntervalUnit (cstr "S") 1000

/-- The text is an interval of so many milliseconds. -/
def IsInterval (s : CString) (ms : ℕ) : Prop :=
  ∃ digits blanks unit factor, s = digits ++ (blanks ++ unit) ∧
    digits ≠ [] ∧ (∀ c ∈ digits, isdigit c = true) ∧ (∀ c ∈ blanks, c = blank ∨ c = tab) ∧
    IntervalUnit unit factor ∧ ms = digitsValue digits * factor ∧ (ms : ℤ) ≤ intMax

/-- Intervals are read, and nothing else is. -/
def ReadsInterval (s : CString) : Prop :=
  (∀ ms, IsInterval s ms → parseIntervalMs s = ms) ∧
    ((¬ ∃ ms, IsInterval s ms) → parseIntervalMs s = -1)

/-- The text begins with a number, behind white space and a sign. -/
structure BeginsWithNumber (s spaces sign digits rest : CString) : Prop where
  text : s = spaces ++ (sign ++ (digits ++ rest))
  spaces : ∀ c ∈ spaces, isspace c = true
  sign : sign = [] ∨ sign = [plus] ∨ sign = [dash]
  digits_ne_nil : digits ≠ []
  digits : ∀ c ∈ digits, isdigit c = true
  rest : EndsNumber rest

/-- The number as an `unsigned long`: a minus sign wraps it around. -/
def unsignedLong (sign digits : CString) : ℕ :=
  if 2 ^ 64 ≤ digitsValue digits then 2 ^ 64 - 1
  else if sign = [dash] then (2 ^ 64 - digitsValue digits) % 2 ^ 64
  else digitsValue digits

/-- The first character behind the blanks is an `s`. -/
def startsSeconds (rest : CString) : Bool :=
  (skipBlanks rest).head?.any fun c => [c] = cstr "s" || [c] = cstr "S"

/-- The number fits an `int`, in milliseconds if it is followed by an `s`. -/
def IntervalFits (val : ℕ) (rest : CString) : Prop :=
  (val : ℤ) ≤ intMax ∧ (startsSeconds rest = true → (val * 1000 : ℤ) ≤ intMax)

section Number

variable {s spaces sign digits rest : CString}

/-- The characters of a sign, and a digit, begin no white space. -/
theorem scanInt_sign (hsign : sign = [] ∨ sign = [plus] ∨ sign = [dash])
    (hne : digits ≠ []) (hdigits : ∀ c ∈ digits, isdigit c = true) (hrest : EndsNumber rest) :
    scanInt (sign ++ (digits ++ rest)) =
      some (if sign = [dash] then -(digitsValue digits : ℤ) else digitsValue digits, rest) := by
  have hscan := scanDigits_append hdigits hne hrest
  rcases hsign with rfl | rfl | rfl
  · obtain ⟨c, more, rfl⟩ := List.exists_cons_of_ne_nil hne
    have hc := hdigits c List.mem_cons_self
    rw [List.nil_append, if_neg (by decide), List.cons_append, scanInt_of_isdigit hc, scanSigned,
      ← List.cons_append, hscan, Option.map_some, one_mul]
  · rw [if_neg (by decide), List.singleton_append, scanInt_cons (by decide), if_neg (by decide),
      if_pos rfl, scanSigned, hscan, Option.map_some, one_mul]
  · rw [if_pos rfl, List.singleton_append, scanInt_cons (by decide), if_pos rfl, scanSigned, hscan,
      Option.map_some, neg_one_mul]

theorem strtoul_of_beginsWithNumber (hs : BeginsWithNumber s spaces sign digits rest) :
    strtoul s = some (unsignedLong sign digits, rest) := by
  have hskip : scanInt s = scanInt (sign ++ (digits ++ rest)) := by
    rw [hs.text, ← scanInt_skipSpaces, skipSpaces_spaces_append hs.spaces, scanInt_skipSpaces]
  have hvalue (z : ℤ) (hz : z = if sign = [dash] then -(digitsValue digits : ℤ)
      else digitsValue digits) :
      (if 2 ^ 64 ≤ z.natAbs then 2 ^ 64 - 1 else (z % 2 ^ 64).toNat) =
        unsignedLong sign digits := by
    rw [unsignedLong, hz]
    split_ifs <;> omega
  rw [strtoul, hskip, scanInt_sign hs.sign hs.digits_ne_nil hs.digits hs.rest, Option.map_some,
    hvalue _ rfl]

theorem digits_of_scanDigits {text : CString} {n : ℕ} (hscan : scanDigits text = some (n, rest)) :
    ∃ digits, text = digits ++ rest ∧ digits ≠ [] ∧ (∀ c ∈ digits, isdigit c = true) ∧
      EndsNumber rest := by
  rw [scanDigits] at hscan
  split_ifs at hscan with hne
  obtain ⟨-, rfl⟩ := Prod.mk.inj (Option.some.inj hscan)
  refine ⟨text.takeWhile isdigit, List.takeWhile_append_dropWhile.symm, hne,
    fun c hc => List.mem_takeWhile_imp hc, fun c hc => ?_⟩
  have hhead := List.head?_dropWhile_not isdigit text
  rw [Option.mem_def.mp hc] at hhead
  simpa using hhead

theorem digits_of_scanSigned {factor z : ℤ} {text : CString}
    (hscan : scanSigned factor text = some (z, rest)) :
    ∃ digits, text = digits ++ rest ∧ digits ≠ [] ∧ (∀ c ∈ digits, isdigit c = true) ∧
      EndsNumber rest := by
  obtain ⟨⟨n, behind⟩, hdigits, hout⟩ := Option.map_eq_some_iff.mp hscan
  obtain rfl : behind = rest := congrArg Prod.snd hout
  exact digits_of_scanDigits hdigits

/-- What is scanned is a number at the beginning of the text. -/
theorem beginsWithNumber_of_scanInt {z : ℤ} (hscan : scanInt s = some (z, rest)) :
    ∃ spaces sign digits, BeginsWithNumber s spaces sign digits rest := by
  obtain ⟨spaces, htext, hspaces⟩ := exists_spaces_append_skipSpaces s
  rw [scanInt] at hscan
  cases hskip : skipSpaces s with
  | nil =>
      rw [hskip] at hscan
      cases hscan
  | cons c more =>
      rw [hskip] at hscan htext
      simp only at hscan
      split_ifs at hscan with hdash hplus
      · obtain ⟨digits, rfl, hne, hdigits, hrest⟩ := digits_of_scanSigned hscan
        exact ⟨spaces, [dash], digits, ⟨by rw [htext, hdash]; rfl, hspaces, .inr (.inr rfl), hne,
          hdigits, hrest⟩⟩
      · obtain ⟨digits, rfl, hne, hdigits, hrest⟩ := digits_of_scanSigned hscan
        exact ⟨spaces, [plus], digits, ⟨by rw [htext, hplus]; rfl, hspaces, .inr (.inl rfl), hne,
          hdigits, hrest⟩⟩
      · obtain ⟨digits, hmore, hne, hdigits, hrest⟩ := digits_of_scanSigned hscan
        exact ⟨spaces, [], digits, ⟨by rw [htext, hmore]; rfl, hspaces, .inl rfl, hne, hdigits,
          hrest⟩⟩

/-- So is what `strtoul` has read. -/
theorem beginsWithNumber_of_strtoul {val : ℕ} (hs : strtoul s = some (val, rest)) :
    ∃ spaces sign digits, BeginsWithNumber s spaces sign digits rest ∧
      val = unsignedLong sign digits := by
  obtain ⟨⟨z, behind⟩, hscan, hout⟩ := Option.map_eq_some_iff.mp hs
  obtain rfl : behind = rest := congrArg Prod.snd hout
  obtain ⟨spaces, sign, digits, hnumber⟩ := beginsWithNumber_of_scanInt hscan
  have hvalue := hs.symm.trans (strtoul_of_beginsWithNumber hnumber)
  exact ⟨spaces, sign, digits, hnumber, (Prod.mk.inj (Option.some.inj hvalue)).1⟩

theorem parseIntervalMs_of_none (hs : strtoul s = none) : parseIntervalMs s = -1 := by
  rw [parseIntervalMs, hs]

theorem parseIntervalMs_of_some {val : ℕ} (hs : strtoul s = some (val, rest)) :
    parseIntervalMs s =
      if intMax < (val : ℤ) then -1
      else if startsSeconds rest then if intMax / 1000 < (val : ℤ) then -1 else (val : ℤ) * 1000
      else (val : ℤ) := by
  cases hhead : (skipBlanks rest).head? with
  | none => simp [parseIntervalMs, hs, startsSeconds, hhead]
  | some c => simp [parseIntervalMs, hs, startsSeconds, hhead]

/-- A number that fits is not refused, whatever is behind it. -/
theorem parseIntervalMs_of_fits {val : ℕ} (hs : strtoul s = some (val, rest))
    (hfits : IntervalFits val rest) : parseIntervalMs s ≠ -1 := by
  obtain ⟨hval, hseconds⟩ := hfits
  rw [parseIntervalMs_of_some hs]
  unfold intMax at *
  split_ifs with hlarge hs hlarge'
  · omega
  · have hscaled := hseconds hs
    omega
  · omega
  · omega

theorem parseIntervalMs_of_not_fits {val : ℕ} (hs : strtoul s = some (val, rest))
    (hfits : ¬ IntervalFits val rest) : parseIntervalMs s = -1 := by
  rw [parseIntervalMs_of_some hs]
  unfold IntervalFits intMax at *
  split_ifs with hlarge hs hlarge'
  · rfl
  · rfl
  · exact absurd ⟨by omega, fun _ => by omega⟩ hfits
  · exact absurd ⟨by omega, fun hseconds => absurd hseconds hs⟩ hfits

/-- A unit begins with no blank and no digit, and with an `s` if it is seconds. -/
theorem skipBlanks_unit {blanks unit : CString} {factor : ℕ}
    (hblanks : ∀ c ∈ blanks, c = blank ∨ c = tab) (hunit : IntervalUnit unit factor) :
    skipBlanks (blanks ++ unit) = unit ∧ (startsSeconds (blanks ++ unit) = true ↔ factor = 1000) ∧
      EndsNumber (blanks ++ unit) := by
  have hskip : skipBlanks (blanks ++ unit) = unit := by
    rw [skipBlanks_append hblanks]
    cases hunit <;> rfl
  refine ⟨hskip, ?_, ?_⟩
  · rw [startsSeconds, hskip]
    cases hunit <;> decide
  · cases blanks with
    | nil => cases hunit <;> decide
    | cons c blanks =>
        intro d hd
        obtain rfl : c = d := Option.some.inj hd
        rcases hblanks c List.mem_cons_self with rfl | rfl <;> rfl

theorem IntervalUnit.mem {unit : CString} {factor : ℕ} (hunit : IntervalUnit unit factor) :
    unit ∈ [[], cstr "ms", cstr "mS", cstr "s", cstr "S"] := by
  cases hunit <;> simp

theorem IntervalUnit.factor_eq {unit : CString} {factor : ℕ} (hunit : IntervalUnit unit factor) :
    factor = 1 ∨ factor = 1000 := by
  cases hunit <;> simp

/-- Behind blanks, a unit is found. -/
theorem parseIntervalMs_of_unit {val factor : ℕ} {blanks unit : CString}
    (hblanks : ∀ c ∈ blanks, c = blank ∨ c = tab) (hunit : IntervalUnit unit factor)
    (hs : strtoul s = some (val, blanks ++ unit)) (hfits : (val * factor : ℤ) ≤ intMax) :
    parseIntervalMs s = val * factor := by
  have hseconds := (skipBlanks_unit hblanks hunit).2.1
  rw [parseIntervalMs_of_some hs]
  unfold intMax at *
  rcases hunit.factor_eq with rfl | rfl
  · have hnot : ¬ startsSeconds (blanks ++ unit) = true := fun hstarts =>
      absurd (hseconds.mp hstarts) (by decide)
    rw [if_neg (by omega), if_neg hnot]
    omega
  · rw [if_neg (by omega), if_pos (hseconds.mpr rfl), if_neg (by omega)]
    rfl

end Number

theorem IntervalUnit.pos {unit : CString} {factor : ℕ} (hunit : IntervalUnit unit factor) :
    0 < factor := by
  rcases hunit.factor_eq with rfl | rfl <;> decide

/-- An interval begins with its number. -/
theorem beginsWithNumber_of_unit {digits blanks unit : CString} {factor : ℕ} (hne : digits ≠ [])
    (hdigits : ∀ c ∈ digits, isdigit c = true) (hblanks : ∀ c ∈ blanks, c = blank ∨ c = tab)
    (hunit : IntervalUnit unit factor) :
    BeginsWithNumber (digits ++ (blanks ++ unit)) [] [] digits (blanks ++ unit) where
  text := rfl
  spaces := fun _ hc => absurd hc List.not_mem_nil
  sign := .inl rfl
  digits_ne_nil := hne
  digits := hdigits
  rest := (skipBlanks_unit hblanks hunit).2.2

theorem unsignedLong_nil (digits : CString) :
    unsignedLong [] digits =
      if 2 ^ 64 ≤ digitsValue digits then 2 ^ 64 - 1 else digitsValue digits := by
  have hnil : ([] : CString) ≠ [dash] := (List.cons_ne_nil dash []).symm
  rw [unsignedLong, if_neg hnil]

/-- An interval is read. -/
theorem parseIntervalMs_of_isInterval {s : CString} {ms : ℕ} (hs : IsInterval s ms) :
    parseIntervalMs s = ms := by
  obtain ⟨digits, blanks, unit, factor, rfl, hne, hdigits, hblanks, hunit, rfl, hfits⟩ := hs
  have hread := strtoul_of_beginsWithNumber (beginsWithNumber_of_unit hne hdigits hblanks hunit)
  have hlong : unsignedLong [] digits = digitsValue digits := by
    have hle : digitsValue digits ≤ digitsValue digits * factor :=
      Nat.le_mul_of_pos_right _ hunit.pos
    unfold intMax at hfits
    rw [unsignedLong_nil, if_neg (by omega)]
  rw [hlong] at hread
  rw [Nat.cast_mul] at hfits ⊢
  exact parseIntervalMs_of_unit hblanks hunit hread hfits

/-- A text that begins with a number that fits is an interval if nothing stands in front of the
number, and a unit behind it. -/
theorem isInterval_of_beginsWithNumber {s digits rest : CString}
    (hs : BeginsWithNumber s [] [] digits rest) (hfits : IntervalFits (unsignedLong [] digits) rest)
    {factor : ℕ} (hunit : IntervalUnit (skipBlanks rest) factor) :
    IsInterval s (digitsValue digits * factor) := by
  obtain ⟨blanks, hsplit, hblanks⟩ := exists_blanks_append_skipBlanks rest
  refine ⟨digits, blanks, _, factor, ?_, hs.digits_ne_nil, hs.digits, hblanks, hunit, rfl, ?_⟩
  · rw [← hsplit]
    exact hs.text
  · obtain ⟨hval, hscaled⟩ := hfits
    have hseconds := (skipBlanks_unit hblanks hunit).2.1
    rw [← hsplit] at hseconds
    rw [unsignedLong_nil] at hval hscaled
    unfold intMax at *
    split_ifs at hval hscaled with hlarge
    · omega
    · rcases hunit.factor_eq with rfl | rfl
      · rw [mul_one]
        exact hval
      · rw [Nat.cast_mul]
        exact hscaled (hseconds.mpr rfl)

/-- A text that begins with a digit has nothing in front of its number. -/
theorem BeginsWithNumber.eq_nil {s spaces sign digits rest digits' rest' : CString}
    (hs : BeginsWithNumber s spaces sign digits rest)
    (hs' : BeginsWithNumber s [] [] digits' rest') : spaces = [] ∧ sign = [] ∧ rest = rest' := by
  have htext : spaces ++ (sign ++ (digits ++ rest)) = digits' ++ rest' :=
    hs.text.symm.trans hs'.text
  have hhead : ∃ c, (digits' ++ rest').head? = some c ∧ isdigit c = true := by
    obtain ⟨c, more, hmore⟩ := List.exists_cons_of_ne_nil hs'.digits_ne_nil
    exact ⟨c, by rw [hmore]; rfl, hs'.digits c (hmore ▸ List.mem_cons_self)⟩
  obtain ⟨c, hc, hdigit⟩ := hhead
  rw [← htext] at hc
  have hspaces : spaces = [] := by
    rcases spaces with _ | ⟨d, spaces⟩
    · rfl
    · obtain rfl : d = c := Option.some.inj hc
      have hspace := hs.spaces d List.mem_cons_self
      rw [isspace_of_isdigit hdigit] at hspace
      cases hspace
  subst hspaces
  have hsign : sign = [] := by
    rcases hs.sign with rfl | rfl | rfl
    · rfl
    · exact absurd (Option.some.inj hc ▸ hdigit) (by decide)
    · exact absurd (Option.some.inj hc ▸ hdigit) (by decide)
  subst hsign
  refine ⟨rfl, rfl, ?_⟩
  have hdrop := (takeWhile_isdigit_append hs.digits hs.rest).2
  rw [List.nil_append, List.nil_append] at htext
  rw [htext, (takeWhile_isdigit_append hs'.digits hs'.rest).2] at hdrop
  exact hdrop.symm

/-- **Intervals and nothing else are read** exactly if the text, where it begins with a number that
fits, has no white space and no sign in front of it, and a unit and nothing else behind it. -/
theorem readsInterval_iff (s : CString) :
    ReadsInterval s ↔ ∀ spaces sign digits rest, BeginsWithNumber s spaces sign digits rest →
      IntervalFits (unsignedLong sign digits) rest →
        spaces = [] ∧ sign = [] ∧ ∃ factor, IntervalUnit (skipBlanks rest) factor := by
  constructor
  · rintro ⟨-, hother⟩ spaces sign digits rest hs hfits
    have hread := parseIntervalMs_of_fits (strtoul_of_beginsWithNumber hs) hfits
    obtain ⟨ms, digits', blanks, unit, factor, rfl, hne, hdigits, hblanks, hunit, -, -⟩ :=
      not_not.mp (mt hother hread)
    obtain ⟨hspaces, hsign, rfl⟩ :=
      hs.eq_nil (beginsWithNumber_of_unit hne hdigits hblanks hunit)
    refine ⟨hspaces, hsign, factor, ?_⟩
    rw [(skipBlanks_unit hblanks hunit).1]
    exact hunit
  · intro hall
    refine ⟨fun ms hs => parseIntervalMs_of_isInterval hs, fun hnot => ?_⟩
    cases hread : strtoul s with
    | none => exact parseIntervalMs_of_none hread
    | some out =>
        obtain ⟨val, rest⟩ := out
        refine parseIntervalMs_of_not_fits hread fun hfits => hnot ?_
        obtain ⟨spaces, sign, digits, hs, rfl⟩ := beginsWithNumber_of_strtoul hread
        obtain ⟨rfl, rfl, factor, hunit⟩ := hall spaces sign digits rest hs hfits
        exact ⟨_, isInterval_of_beginsWithNumber hs hfits hunit⟩

/-- `5min` are 5 milliseconds. -/
theorem not_readsInterval_min : ¬ ReadsInterval (cstr "5min") := by
  rintro ⟨-, hother⟩
  have hread : parseIntervalMs (cstr "5min") = 5 := by decide +kernel
  have hnumber : BeginsWithNumber (cstr "5min") [] [] (cstr "5") (cstr "min") := by
    constructor <;> decide
  have hnot : ¬ ∃ ms, IsInterval (cstr "5min") ms := by
    rintro ⟨ms, digits, blanks, unit, factor, htext, hne, hdigits, hblanks, hunit, -, -⟩
    have hinterval := beginsWithNumber_of_unit hne hdigits hblanks hunit
    rw [← htext] at hinterval
    have hbehind := (hnumber.eq_nil hinterval).2.2
    have hfound := (skipBlanks_unit hblanks hunit).1
    rw [← hbehind] at hfound
    exact absurd (hfound ▸ hunit.mem) (by decide)
  rw [hother hnot] at hread
  cases hread

end BasC
