/-
# Frame lines

A line that gdb prints for a frame is made of its parts, with blanks and words between them, and
`gdb_output_stack_frame_parse` looks for the same blanks and words from left to right. It finds
the parts that were written unless a word comes up earlier: the method may end in ` at`, or be
`in`, and the parentheses of the arguments are counted in literals as well.
-/

import BasC.Proc.FormatGdb

namespace BasC

open CChar

/-- The parts of a frame line; the address is given by its digits. -/
structure FrameLine where
  frameNumber : ℕ
  blanks : CString
  address : Option CString
  method : CString
  params : CString
  file : CString
  line : ℕ

namespace FrameLine

/-- `0x` and the digits. -/
def addressText (digits : CString) : CString := cstr "0x" ++ digits

/-- From the method on. -/
def symbolText (parts : FrameLine) : CString :=
  parts.method ++ cstr " " ++ parts.params ++ cstr " at " ++ parts.file ++ cstr ":" ++
    decimalNat parts.line ++ [newline]

/-- The line. -/
def text (parts : FrameLine) : CString :=
  cstr "#" ++ decimalNat parts.frameNumber ++ parts.blanks ++
    (match parts.address with
    | some digits => addressText digits ++ cstr " in " ++ parts.symbolText
    | none => parts.symbolText)

/-- The parts can be told apart, but for what is between the parentheses. -/
structure Separate (parts : FrameLine) : Prop where
  number_fits : parts.frameNumber ≤ intMax
  blanks_ne_nil : parts.blanks ≠ []
  blanks : ∀ c ∈ parts.blanks, c = blank ∨ c = tab
  address : ∀ digits ∈ parts.address, ∀ c ∈ digits, isxdigit c = true
  method_ne_nil : parts.method ≠ []
  method_blank : ∀ c ∈ parts.method.head?, c ≠ blank ∧ c ≠ tab
  method_address : ¬ cstr "0x" <+: parts.method ∧ ¬ cstr "0X" <+: parts.method
  method_in : ¬ cstr "in " <+: parts.method
  method_at : ¬ cstr " at " <:+: parts.method
  method_params : ¬ cstr " (" <:+: parts.method
  params : parts.params.head? = some openParen
  file_ne_nil : parts.file ≠ []
  file_break : newline ∉ parts.file ∧ carriageReturn ∉ parts.file
  file_colon : ∀ front c back, parts.file = front ++ colon :: c :: back → isdigit c = false
  line_fits : parts.line ≤ intMax

/-- The method is not taken for one of the words around it. -/
def MethodStands (parts : FrameLine) : Prop :=
  ¬ cstr " at" <:+ parts.method ∧ (parts.address = none → parts.method ≠ cstr "in")

/-- What the line is to be parsed into. -/
def frame (parts : FrameLine) : StackFrame where
  frameNumber := parts.frameNumber
  address := parts.address.map addressText
  method := some parts.method
  params := some parts.params
  file := some parts.file
  line := parts.line
  rawLine := parts.text

end FrameLine

def CChar.lowerA : CChar := ⟨97, by decide⟩
def CChar.lowerI : CChar := ⟨105, by decide⟩
def CChar.lowerN : CChar := ⟨110, by decide⟩
def CChar.lowerS : CChar := ⟨115, by decide⟩
def CChar.lowerT : CChar := ⟨116, by decide⟩

theorem cstr_hash : cstr "#" = [hash] := rfl

theorem cstr_blank : cstr " " = [blank] := rfl

theorem cstr_colon : cstr ":" = [colon] := rfl

theorem cstr_0x : cstr "0x" = [CChar.digit 0, lowerX] := rfl

theorem cstr_0X : cstr "0X" = [CChar.digit 0, upperX] := rfl

theorem cstr_params : cstr " (" = [blank, openParen] := rfl

theorem cstr_in : cstr "in " = [lowerI, lowerN, blank] := rfl

theorem cstr_in_append : cstr "in " = cstr "in" ++ [blank] := rfl

theorem cstr_blank_in_blank : cstr " in " = blank :: cstr "in " := rfl

theorem cstr_blank_at : cstr " at" = [blank, lowerA, lowerT] := rfl

theorem cstr_at_blank : cstr "at " = [lowerA, lowerT, blank] := rfl

theorem cstr_blank_at_blank : cstr " at " = [blank, lowerA, lowerT, blank] := rfl

theorem cstr_at_append : cstr " at " = cstr " at" ++ [blank] := by
  rw [cstr_blank_at_blank, cstr_blank_at]
  rfl

theorem cstr_blank_append : cstr " at " = blank :: cstr "at " := by
  rw [cstr_blank_at_blank, cstr_at_blank]

theorem endsNumber_cons {c : CChar} (hc : isdigit c = false) (rest : CString) :
    EndsNumber (c :: rest) := fun d hd => by
  rwa [← Option.some.inj hd]

theorem head?_decimalNat (n : ℕ) : (decimalNat n).head?.any isdigit = true := by
  obtain ⟨c, more, hmore⟩ := List.exists_cons_of_ne_nil (decimalNat_ne_nil n)
  rw [hmore]
  exact isdigit_of_mem_decimalNat (n := n) (hmore ▸ List.mem_cons_self)

theorem takeWhile_decimalNat (n : ℕ) {rest : CString} (hrest : EndsNumber rest) :
    (decimalNat n ++ rest).takeWhile isdigit = decimalNat n ∧
      (decimalNat n ++ rest).dropWhile isdigit = rest :=
  takeWhile_isdigit_append (fun _ => isdigit_of_mem_decimalNat) hrest

theorem frameText_number (n : ℕ) (p : CString) :
    frameText (cstr "#" ++ decimalNat n ++ p) = some (decimalNat n ++ p) := by
  have hhead : (decimalNat n ++ p).head?.any isdigit = true := by
    have hdigit := head?_decimalNat n
    rwa [List.head?_append_of_ne_nil _ (decimalNat_ne_nil n)]
  have hskip : skipBlanks (hash :: (decimalNat n ++ p)) = hash :: (decimalNat n ++ p) :=
    List.dropWhile_cons_of_neg (by decide)
  rw [List.append_assoc, cstr_hash, List.singleton_append, frameText, hskip]
  exact if_pos ⟨rfl, hhead⟩

/-- Behind the number of a frame stands something else than a digit or an `x`. -/
theorem parseFrameNumber_decimalNat (n : ℕ) {rest : CString} (hrest : EndsNumber rest)
    (hx : startsX rest = false) : parseFrameNumber (decimalNat n ++ rest) = ((n : ℤ), rest) := by
  obtain ⟨htake, hdrop⟩ := takeWhile_decimalNat n hrest
  simp only [parseFrameNumber, htake, hdrop, hx, Bool.false_eq_true, false_and, and_false,
    if_false, digitsValue_decimalNat]

/-- A number and the `0` of an address behind it. -/
theorem isdigit_of_mem_concat_zero (n : ℕ) :
    ∀ c ∈ decimalNat n ++ [CChar.digit 0], isdigit c = true := by
  intro c hc
  rcases List.mem_append.mp hc with hc | hc
  · exact isdigit_of_mem_decimalNat hc
  · rw [List.mem_singleton.mp hc]
    exact isdigit_digit 0

/-- Where an address follows at once, its `0` is taken for a digit of the number, and given
back. -/
theorem parseFrameNumber_compact {n : ℕ} (hn : n ≠ 0) {rest : CString} (hx : startsX rest = true)
    (hrest : EndsNumber rest) :
    parseFrameNumber (decimalNat n ++ CChar.digit 0 :: rest) =
      ((n : ℤ), CChar.digit 0 :: rest) := by
  have hdigits := isdigit_of_mem_concat_zero n
  have hsplit : decimalNat n ++ CChar.digit 0 :: rest =
      decimalNat n ++ [CChar.digit 0] ++ rest := by
    rw [List.append_assoc, List.singleton_append]
  obtain ⟨htake, hdrop⟩ := takeWhile_isdigit_append hdigits hrest
  have hvalue : digitsValue (decimalNat n ++ [CChar.digit 0]) = n * 10 := by
    rw [digitsValue_concat, digitsValue_decimalNat, digitValue_digit, Nat.zero_mod, Nat.add_zero]
  have hpos : 0 < n * 10 := by omega
  rw [parseFrameNumber, hsplit, htake, hdrop, hvalue, hx]
  simp only [hpos, true_and, Nat.mul_mod_left, if_true]
  rw [Nat.cast_mul, Nat.cast_ofNat, Int.mul_ediv_cancel _ (by decide)]

/-- For frame 0 there is no such digit to give back. -/
theorem parseFrameNumber_zero {rest : CString} (hrest : EndsNumber rest) :
    parseFrameNumber (decimalNat 0 ++ CChar.digit 0 :: rest) = (0, rest) := by
  have hdigits := isdigit_of_mem_concat_zero 0
  have hsplit : decimalNat 0 ++ CChar.digit 0 :: rest =
      decimalNat 0 ++ [CChar.digit 0] ++ rest := by
    rw [List.append_assoc, List.singleton_append]
  obtain ⟨htake, hdrop⟩ := takeWhile_isdigit_append hdigits hrest
  have hvalue : digitsValue (decimalNat 0 ++ [CChar.digit 0]) = 0 := by decide +kernel
  rw [parseFrameNumber, hsplit, htake, hdrop, hvalue]
  rfl

/-- The text does not go on with a hexadecimal digit. -/
def EndsHex (rest : CString) : Prop := ∀ c ∈ rest.head?, isxdigit c = false

theorem endsHex_in (rest : CString) : EndsHex (cstr " in " ++ rest) := by
  rw [cstr_blank_in_blank]
  intro c hc
  rw [← Option.some.inj hc]
  rfl

theorem parseAddress_hex {blanks digits rest : CString}
    (hblanks : ∀ c ∈ blanks, c = blank ∨ c = tab) (hdigits : ∀ c ∈ digits, isxdigit c = true)
    (hrest : EndsHex rest) :
    parseAddress (blanks ++ (FrameLine.addressText digits ++ rest)) =
      (some (FrameLine.addressText digits), rest) := by
  have hskip : skipBlanks (FrameLine.addressText digits ++ rest) =
      FrameLine.addressText digits ++ rest := by
    rw [FrameLine.addressText, cstr_0x]
    exact List.dropWhile_cons_of_neg (by decide)
  have htake : (digits ++ rest).takeWhile isxdigit = digits := by
    rw [List.takeWhile_append_of_pos hdigits]
    cases rest with
    | nil => exact List.append_nil _
    | cons c rest =>
        rw [List.takeWhile_cons_of_neg (by simpa using hrest c rfl), List.append_nil]
  have hdrop : (digits ++ rest).dropWhile isxdigit = rest := by
    rw [List.dropWhile_append_of_pos hdigits]
    cases rest with
    | nil => rfl
    | cons c rest => exact List.dropWhile_cons_of_neg (by simpa using hrest c rfl)
  have htext : FrameLine.addressText digits ++ rest =
      CChar.digit 0 :: lowerX :: (digits ++ rest) := by
    rw [FrameLine.addressText, cstr_0x]
    rfl
  have hstart : (CChar.digit 0 :: lowerX :: (digits ++ rest)).head? = some (CChar.digit 0) ∧
      startsX (CChar.digit 0 :: lowerX :: (digits ++ rest)).tail = true := ⟨rfl, rfl⟩
  rw [parseAddress, skipBlanks_append hblanks, hskip, htext]
  simp only [if_pos hstart, List.take_succ_cons, List.take_zero, List.drop_succ_cons,
    List.drop_zero, htake, hdrop]
  rw [FrameLine.addressText, cstr_0x]

theorem parseAddress_none {blanks p : CString} (hblanks : ∀ c ∈ blanks, c = blank ∨ c = tab)
    (hp : ∀ c ∈ p.head?, c ≠ blank ∧ c ≠ tab) (hlower : ¬ cstr "0x" <+: p)
    (hupper : ¬ cstr "0X" <+: p) : parseAddress (blanks ++ p) = (none, p) := by
  have hnot : ¬ (p.head? = some (CChar.digit 0) ∧ startsX p.tail = true) := by
    rintro ⟨hzero, hx⟩
    obtain ⟨more, rfl⟩ := List.head?_eq_some_iff.mp hzero
    rw [List.tail_cons, startsX, Bool.or_eq_true, decide_eq_true_iff, decide_eq_true_iff] at hx
    rcases hx with hx | hx
    · obtain ⟨rest, rfl⟩ := List.head?_eq_some_iff.mp hx
      exact hlower (cstr_0x ▸ List.prefix_append [CChar.digit 0, lowerX] rest)
    · obtain ⟨rest, rfl⟩ := List.head?_eq_some_iff.mp hx
      exact hupper (cstr_0X ▸ List.prefix_append [CChar.digit 0, upperX] rest)
  rw [parseAddress, skipBlanks_append hblanks, skipBlanks_eq_self hp]
  exact if_neg hnot

/-! ## The method -/

/-- The method ends here. -/
def StopsMethod (p : CString) : Prop := cstr " at " <+: p ∨ cstr " (" <+: p

/-- The method is everything in front of the first place where it ends. -/
theorem splitMethod_eq_iff {rest : CString} (hrest : StopsMethod rest) (front : CString) :
    splitMethod (front ++ rest) = (front, rest) ↔
      ∀ before after, front = before ++ after → after ≠ [] → ¬ StopsMethod (after ++ rest) := by
  have hstops (p : CString) :
      ((cstr " at ").isPrefixOf p || (cstr " (").isPrefixOf p) = true ↔ StopsMethod p := by
    rw [Bool.or_eq_true, List.isPrefixOf_iff_prefix, List.isPrefixOf_iff_prefix, StopsMethod]
  induction front with
  | nil =>
      refine iff_of_true ?_ fun before after hsplit hafter => ?_
      · cases rest with
        | nil => rfl
        | cons c rest =>
            rw [List.nil_append, splitMethod]
            exact if_pos ((hstops _).mpr hrest)
      · exact absurd (List.append_eq_nil_iff.mp hsplit.symm).2 hafter
  | cons c front ih =>
      rw [List.cons_append, splitMethod]
      by_cases hstop : StopsMethod (c :: (front ++ rest))
      · rw [if_pos ((hstops _).mpr hstop)]
        refine iff_of_false (fun heq => ?_) fun hnone => ?_
        · cases congrArg Prod.fst heq
        · exact hnone [] (c :: front) rfl (List.cons_ne_nil _ _) hstop
      · rw [if_neg (mt (hstops _).mp hstop)]
        have hcons : ((c :: (splitMethod (front ++ rest)).1, (splitMethod (front ++ rest)).2) =
            (c :: front, rest)) ↔ splitMethod (front ++ rest) = (front, rest) := by
          simp [Prod.ext_iff]
        refine hcons.trans (ih.trans ?_)
        constructor
        · intro hnone before after hsplit hafter
          cases before with
          | nil =>
              obtain rfl : c :: front = after := hsplit
              exact hstop
          | cons d before => exact hnone before after (List.cons.inj hsplit).2 hafter
        · exact fun hnone before after hsplit hafter =>
            hnone (c :: before) after (congrArg (c :: ·) hsplit) hafter

/-- A word that begins in front of ` (` is in front of it, or is ` at ` across the blank. -/
theorem stopsMethod_append_iff {after : CString} (hafter : after ≠ []) (more : CString) :
    StopsMethod (after ++ blank :: openParen :: more) ↔
      cstr " at " <+: after ∨ cstr " (" <+: after ∨ after = cstr " at" := by
  have hba : blank ≠ lowerA := by decide
  have hbt : blank ≠ lowerT := by decide
  have hbp : blank ≠ openParen := by decide
  rw [StopsMethod, cstr_blank_at_blank, cstr_blank_at, cstr_params]
  rcases after with _ | ⟨c, _ | ⟨d, _ | ⟨e, _ | ⟨f, after⟩⟩⟩⟩
  · exact absurd rfl hafter
  · simp [List.cons_prefix_cons, hba.symm, hbp.symm]
  · simp [List.cons_prefix_cons, hbt.symm]
  · simp [List.cons_prefix_cons, eq_comm, or_comm]
  · simp [List.cons_prefix_cons]

theorem splitMethod_append (p : CString) : (splitMethod p).1 ++ (splitMethod p).2 = p := by
  induction p with
  | nil => rfl
  | cons c rest ih =>
      rw [splitMethod]
      split
      · rfl
      · exact congrArg (c :: ·) ih

/-- The method does not go beyond a place where it ends. -/
theorem splitMethod_prefix {rest : CString} (hrest : StopsMethod rest) (front : CString) :
    (splitMethod (front ++ rest)).1 <+: front := by
  induction front with
  | nil =>
      have hnil := (splitMethod_eq_iff hrest []).mpr fun before after hsplit hafter =>
        absurd (List.append_eq_nil_iff.mp hsplit.symm).2 hafter
      rw [hnil]
  | cons c front ih =>
      rw [List.cons_append, splitMethod]
      split
      · exact List.nil_prefix
      · exact List.cons_prefix_cons.mpr ⟨rfl, ih⟩

theorem splitMethod_openParen (p : CString) : (splitMethod (openParen :: p)).1 ≠ [] := by
  have hstop : ¬ ((cstr " at ").isPrefixOf (openParen :: p) ||
      (cstr " (").isPrefixOf (openParen :: p)) = true := by
    rw [cstr_blank_at_blank, cstr_params]
    exact Bool.false_ne_true
  rw [splitMethod, if_neg hstop]
  exact List.cons_ne_nil _ _

/-- **Where the method ends**: at the arguments, unless it ends in ` at`. -/
theorem splitMethod_params {method : CString} (hat : ¬ cstr " at " <:+: method)
    (hparams : ¬ cstr " (" <:+: method) (more : CString) :
    splitMethod (method ++ blank :: openParen :: more) =
        (method, blank :: openParen :: more) ↔ ¬ cstr " at" <:+ method := by
  have hrest : StopsMethod (blank :: openParen :: more) :=
    .inr (cstr_params ▸ List.prefix_append [blank, openParen] more)
  rw [splitMethod_eq_iff hrest]
  constructor
  · rintro hnone ⟨before, hsplit⟩
    have hne : cstr " at" ≠ [] := by decide
    exact hnone before _ hsplit.symm hne ((stopsMethod_append_iff hne more).mpr (.inr (.inr rfl)))
  · intro hends before after hsplit hafter hstops
    subst hsplit
    rcases (stopsMethod_append_iff hafter more).mp hstops with hword | hword | rfl
    · exact hat (hword.isInfix.trans (List.suffix_append before after).isInfix)
    · exact hparams (hword.isInfix.trans (List.suffix_append before after).isInfix)
    · exact hends (List.suffix_append before _)

/-- Read from a depth, the text comes down to 0 at its end and not before. -/
def Closes (depth : ℕ) (text : CString) : Prop :=
  text.count closeParen = depth + text.count openParen ∧
    ∀ front, front <+: text → front ≠ text →
      front.count closeParen < depth + front.count openParen

/-- The first parenthesis of the text is closed by its last character, counting all of them. -/
def ClosesLast (params : CString) : Prop := ∃ rest, params = openParen :: rest ∧ Closes 1 rest

theorem closes_zero_iff (text : CString) : Closes 0 text ↔ text = [] := by
  constructor
  · rintro ⟨-, hfronts⟩
    by_contra hne
    have hpos := hfronts [] (List.nil_prefix) (Ne.symm hne)
    exact absurd hpos (Nat.lt_irrefl 0)
  · rintro rfl
    exact ⟨rfl, fun front hfront hne => absurd (List.prefix_nil.mp hfront) hne⟩

theorem not_closes_nil (depth : ℕ) : ¬ Closes (depth + 1) [] := by
  rintro ⟨hcount, -⟩
  simp at hcount

/-- The depth behind a character. -/
def depthBehind (depth : ℕ) (c : CChar) : ℕ :=
  if c = openParen then depth + 1 else if c = closeParen then depth - 1 else depth

theorem count_cons_depth (depth : ℕ) (c : CChar) (text : CString) :
    ((c :: text).count closeParen = (depth + 1) + (c :: text).count openParen ↔
        text.count closeParen = depthBehind (depth + 1) c + text.count openParen) ∧
      ((c :: text).count closeParen < (depth + 1) + (c :: text).count openParen ↔
        text.count closeParen < depthBehind (depth + 1) c + text.count openParen) := by
  have hne : openParen ≠ closeParen := by decide
  rw [depthBehind]
  split_ifs with hopen hclose
  · subst hopen
    rw [List.count_cons_self, List.count_cons_of_ne hne]
    omega
  · subst hclose
    rw [List.count_cons_self, List.count_cons_of_ne hne.symm]
    omega
  · rw [List.count_cons_of_ne hclose, List.count_cons_of_ne hopen]
    omega

theorem closes_cons_iff (depth : ℕ) (c : CChar) (text : CString) :
    Closes (depth + 1) (c :: text) ↔ Closes (depthBehind (depth + 1) c) text := by
  constructor
  · rintro ⟨hcount, hfronts⟩
    refine ⟨(count_cons_depth depth c text).1.mp hcount, fun front hfront hne => ?_⟩
    have hcons : c :: front ≠ c :: text := fun heq => hne (List.cons.inj heq).2
    exact (count_cons_depth depth c front).2.mp
      (hfronts (c :: front) (List.cons_prefix_cons.mpr ⟨rfl, hfront⟩) hcons)
  · rintro ⟨hcount, hfronts⟩
    refine ⟨(count_cons_depth depth c text).1.mpr hcount, fun front hfront hne => ?_⟩
    cases front with
    | nil =>
        simp
    | cons d front =>
        obtain ⟨rfl, hfront'⟩ := List.cons_prefix_cons.mp hfront
        have htail : front ≠ text := fun heq => hne (congrArg (d :: ·) heq)
        exact (count_cons_depth depth d front).2.mpr (hfronts front hfront' htail)

/-- At depth 0, nothing is read. -/
theorem splitParams_zero_eq_some_iff (p params rest : CString) :
    splitParams 0 p = (some params, rest) ↔ p = params ++ rest ∧ Closes 0 params := by
  have hzero : splitParams 0 p = (some [], p) := by cases p <;> rfl
  rw [hzero, closes_zero_iff]
  simp only [Prod.mk.injEq, Option.some.injEq]
  constructor
  · rintro ⟨rfl, rfl⟩
    exact ⟨rfl, rfl⟩
  · rintro ⟨hsplit, rfl⟩
    exact ⟨rfl, hsplit⟩

/-- **The loop over the arguments** ends where the first parenthesis is closed. -/
theorem splitParams_eq_some_iff (depth : ℕ) (p params rest : CString) :
    splitParams depth p = (some params, rest) ↔ p = params ++ rest ∧ Closes depth params := by
  induction p generalizing depth params with
  | nil =>
      cases depth with
      | zero => exact splitParams_zero_eq_some_iff [] params rest
      | succ depth =>
          rw [splitParams]
          refine iff_of_false (fun heq => ?_) fun hsplit => ?_
          · cases congrArg Prod.fst heq
          · rw [(List.append_eq_nil_iff.mp hsplit.1.symm).1] at hsplit
            exact not_closes_nil depth hsplit.2
  | cons c p ih =>
      cases depth with
      | zero => exact splitParams_zero_eq_some_iff (c :: p) params rest
      | succ depth =>
          have hstep : splitParams (depth + 1) (c :: p) =
              ((splitParams (depthBehind (depth + 1) c) p).1.map (c :: ·),
                (splitParams (depthBehind (depth + 1) c) p).2) := by
            rw [splitParams, depthBehind]
            split_ifs <;> rfl
          rw [hstep, Prod.mk.injEq, Option.map_eq_some_iff]
          constructor
          · rintro ⟨⟨inner, hinner, rfl⟩, hrest⟩
            obtain ⟨rfl, hcloses⟩ :=
              (ih (depthBehind (depth + 1) c) inner).mp (Prod.ext hinner hrest)
            exact ⟨rfl, (closes_cons_iff depth c inner).mpr hcloses⟩
          · rintro ⟨hsplit, hcloses⟩
            cases params with
            | nil => exact absurd hcloses (not_closes_nil depth)
            | cons d inner =>
                obtain ⟨rfl, rfl⟩ := List.cons.inj hsplit
                have hinner := (ih (depthBehind (depth + 1) c) inner).mpr
                  ⟨rfl, (closes_cons_iff depth c inner).mp hcloses⟩
                rw [hinner]
                exact ⟨⟨inner, rfl, rfl⟩, rfl⟩

theorem parseParams_cons (inner rest : CString) :
    parseParams (blank :: (openParen :: inner ++ rest)) =
      ((splitParams 1 (inner ++ rest)).1.map (openParen :: ·),
        (splitParams 1 (inner ++ rest)).2) := by
  have hskip : skipBlanks (blank :: (openParen :: inner ++ rest)) =
      openParen :: (inner ++ rest) := by
    rw [skipBlanks, List.dropWhile_cons_of_pos (by decide)]
    exact List.dropWhile_cons_of_neg (by decide)
  rw [parseParams, hskip]
  simp only [if_true]

/-- Arguments that close at their end are found, and what stands behind them is left. -/
theorem parseParams_of_closes {params : CString} (hcloses : ClosesLast params) (rest : CString) :
    parseParams (blank :: (params ++ rest)) = (some params, rest) := by
  obtain ⟨inner, rfl, hinner⟩ := hcloses
  have hfound := (splitParams_eq_some_iff 1 (inner ++ rest) inner rest).mpr ⟨rfl, hinner⟩
  rw [parseParams_cons, hfound]
  rfl

/-- Arguments that are found close at their end. -/
theorem closesLast_of_parseParams {p params : CString} (hfound : (parseParams p).1 = some params) :
    ClosesLast params ∧
      ∃ blanks rest, (∀ c ∈ blanks, c = blank ∨ c = tab) ∧ p = blanks ++ (params ++ rest) := by
  obtain ⟨blanks, hsplit, hblanks⟩ := exists_blanks_append_skipBlanks p
  rw [parseParams] at hfound
  cases hskip : skipBlanks p with
  | nil =>
      rw [hskip] at hfound
      cases hfound
  | cons c text =>
      rw [hskip] at hfound hsplit
      simp only at hfound
      split_ifs at hfound with hopen
      obtain ⟨inner, hinner, rfl⟩ := Option.map_eq_some_iff.mp hfound
      obtain ⟨htext, hcloses⟩ := (splitParams_eq_some_iff 1 text inner _).mp (Prod.ext hinner rfl)
      rw [hopen] at hsplit ⊢
      refine ⟨⟨inner, rfl, hcloses⟩, blanks, (splitParams 1 text).2, hblanks, ?_⟩
      rw [List.cons_append, ← htext]
      exact hsplit

/-- There are none at ` at `. -/
theorem parseParams_at (rest : CString) : (parseParams (cstr " at " ++ rest)).1 = none := by
  rw [cstr_blank_at_blank, parseParams, skipBlanks, List.cons_append, List.cons_append,
    List.dropWhile_cons_of_pos (by decide), List.dropWhile_cons_of_neg (by decide)]
  exact congrArg Prod.fst (if_neg (by decide))

/-- A beginning of the arguments does not close more than it opens. -/
theorem ClosesLast.count_le {params text : CString} (hparams : ClosesLast params)
    (htext : text <+: params) (hne : text ≠ params) :
    text.count closeParen ≤ text.count openParen := by
  obtain ⟨inner, rfl, -, hfronts⟩ := hparams
  cases text with
  | nil => exact Nat.le_refl _
  | cons c text =>
      obtain ⟨rfl, htext'⟩ := List.cons_prefix_cons.mp htext
      have hopen := hfronts text htext' fun heq => hne (congrArg (openParen :: ·) heq)
      rw [List.count_cons_of_ne (by decide), List.count_cons_self]
      omega

/-- What stands behind a part of the arguments closes more than it opens. -/
theorem ClosesLast.count_lt {front behind : CString} (hparams : ClosesLast (front ++ behind))
    (hfront : front ≠ []) (hbehind : behind ≠ []) :
    behind.count openParen < behind.count closeParen := by
  obtain ⟨inner, hinner, hcount, hfronts⟩ := hparams
  cases front with
  | nil => exact absurd rfl hfront
  | cons c front =>
      rw [List.cons_append] at hinner
      obtain ⟨rfl, rfl⟩ := List.cons.inj hinner
      have hopen := hfronts front (List.prefix_append front behind) fun heq =>
        hbehind (List.append_right_eq_self.mp heq.symm)
      rw [List.count_append, List.count_append] at hcount
      omega

theorem count_parens_of_blanks {blanks : CString} (hblanks : ∀ c ∈ blanks, c = blank ∨ c = tab) :
    blanks.count openParen = 0 ∧ blanks.count closeParen = 0 := by
  have hmem (c : CChar) (hb : c ≠ blank) (ht : c ≠ tab) : c ∉ blanks := fun hc =>
    (hblanks c hc).elim hb ht
  exact ⟨List.count_eq_zero.mpr (hmem _ (by decide) (by decide)),
    List.count_eq_zero.mpr (hmem _ (by decide) (by decide))⟩

/-- Where the arguments close at their end, a text that stands behind a part of them does not
go on with all of them. -/
theorem ClosesLast.not_append {params front behind : CString} (hparams : ClosesLast params)
    (hfront : front ≠ []) (hbehind : behind ≠ []) (hsplit : params = front ++ behind)
    {blanks : CString} (hblanks : ∀ c ∈ blanks, c = blank ∨ c = tab) (rest tail : CString) :
    behind ++ tail ≠ blanks ++ (params ++ rest) := by
  intro heq
  have hcount : behind.count openParen < behind.count closeParen :=
    ClosesLast.count_lt (hsplit ▸ hparams) hfront hbehind
  have hlength : behind.length < params.length := by
    rw [hsplit, List.length_append]
    have hpos := List.length_pos_iff.mpr hfront
    omega
  have hshort : behind <+: blanks ++ params := by
    refine List.prefix_of_prefix_length_le (List.prefix_append behind tail) ?_ ?_
    · rw [heq, ← List.append_assoc]
      exact List.prefix_append _ _
    · rw [List.length_append]
      omega
  -- what is behind ends in the blanks, or in a beginning of the arguments
  rcases List.prefix_or_prefix_of_prefix hshort (List.prefix_append blanks params) with
    hin | ⟨text, rfl⟩
  · have hnone := count_parens_of_blanks fun c hc => hblanks c (hin.subset hc)
    rw [hnone.1, hnone.2] at hcount
    exact absurd hcount (Nat.lt_irrefl 0)
  · have hnone := count_parens_of_blanks hblanks
    rw [List.count_append, List.count_append, hnone.1, hnone.2, Nat.zero_add,
      Nat.zero_add] at hcount
    have hshorter : text ≠ params := by
      rintro rfl
      rw [List.length_append] at hlength
      omega
    have htext := hparams.count_le ((List.prefix_append_right_inj blanks).mp hshort) hshorter
    omega

/-! ## The file and the line -/

theorem strtolInt_decimalNat {n : ℕ} (hn : n ≤ intMax) {rest : CString} (hrest : EndsNumber rest) :
    strtolInt (decimalNat n ++ rest) = n := by
  rw [intMax] at hn
  have hint : Int.bmod (n : ℤ) (2 ^ 32) = n := by
    apply Int.bmod_eq_of_le_mul_two
    · omega
    · omega
  have hlong : min n (2 ^ 63 - 1) = n := Nat.min_eq_left (by omega)
  unfold strtolInt
  rw [(takeWhile_decimalNat n hrest).1, digitsValue_decimalNat, hlong, hint]

/-- The file ends at the colon in front of the line. -/
theorem splitColon_append {file : CString} (hnewline : newline ∉ file)
    (hreturn : carriageReturn ∉ file)
    (hcolon : ∀ front c back, file = front ++ colon :: c :: back → isdigit c = false)
    {rest : CString} (hrest : rest.head?.any isdigit = true) :
    splitColon (file ++ colon :: rest) = some (file, rest) := by
  induction file with
  | nil =>
      rw [List.nil_append, splitColon, if_neg (by decide), if_pos ⟨rfl, hrest⟩]
  | cons c file ih =>
      have hbreak : ¬ (c = newline ∨ c = carriageReturn) := by
        rintro (rfl | rfl)
        · exact hnewline List.mem_cons_self
        · exact hreturn List.mem_cons_self
      have hnot : ¬ (c = colon ∧ (file ++ colon :: rest).head?.any isdigit = true) := by
        rintro ⟨rfl, hdigit⟩
        cases file with
        | nil => exact absurd (show isdigit colon = true from hdigit) (by decide)
        | cons d file =>
            have hd : isdigit d = false := hcolon [] d file rfl
            rw [List.cons_append, List.head?_cons, Option.any_some, hd] at hdigit
            cases hdigit
      have hfound := ih (fun hmem => hnewline (List.mem_cons_of_mem _ hmem))
        (fun hmem => hreturn (List.mem_cons_of_mem _ hmem))
        (fun front d back hsplit => hcolon (c :: front) d back (congrArg (c :: ·) hsplit))
      rw [List.cons_append, splitColon, if_neg hbreak, if_neg hnot, hfound, Option.map_some]

theorem parseFile_text {file : CString} (hne : file ≠ []) (hnewline : newline ∉ file)
    (hreturn : carriageReturn ∉ file)
    (hcolon : ∀ front c back, file = front ++ colon :: c :: back → isdigit c = false)
    {line : ℕ} (hline : line ≤ intMax) :
    parseFile (cstr " at " ++ file ++ cstr ":" ++ decimalNat line ++ [newline]) =
      (some file, (line : ℤ)) := by
  have hends : EndsNumber [newline] := by decide
  have hskip (p : CString) : skipBlanks (blank :: (cstr "at " ++ p)) = cstr "at " ++ p := by
    rw [cstr_at_blank, skipBlanks, List.dropWhile_cons_of_pos (by decide)]
    exact List.dropWhile_cons_of_neg (by decide)
  have htext : cstr " at " ++ file ++ cstr ":" ++ decimalNat line ++ [newline] =
      blank :: (cstr "at " ++ (file ++ colon :: (decimalNat line ++ [newline]))) := by
    rw [cstr_blank_append, cstr_colon]
    simp
  have hdigit : (decimalNat line ++ [newline]).head?.any isdigit = true := by
    rw [List.head?_append_of_ne_nil _ (decimalNat_ne_nil line)]
    exact head?_decimalNat line
  rw [htext, parseFile, hskip, dropWord_append]
  simp only [splitColon_append hnewline hreturn hcolon hdigit, if_neg hne,
    strtolInt_decimalNat hline hends]

/-- The frame, from the place on where the method is looked for. -/
def frameFrom (frameNumber : ℤ) (address : Option CString) (p rawLine : CString) : StackFrame :=
  let method := splitMethod p
  let params := parseParams method.2
  let file := parseFile params.2
  ⟨frameNumber, address, if method.1 = [] then none else some method.1, params.1, file.1, file.2,
    rawLine⟩

/-- The place where the method is looked for, behind the address. -/
def symbolFrom (p : CString) : CString :=
  (dropWord (cstr "in ") (skipBlanks p)).getD (skipBlanks p)

theorem gdbOutputStackFrameParse_of {line p behindNumber behindAddress : CString} {number : ℤ}
    {address : Option CString} (htext : frameText line = some p)
    (hfits : digitsValue (p.takeWhile isdigit) ≤ intMax)
    (hnumber : parseFrameNumber p = (number, behindNumber))
    (haddress : parseAddress behindNumber = (address, behindAddress)) :
    gdbOutputStackFrameParse line =
      .frame (frameFrom number address (symbolFrom behindAddress) line) := by
  simp only [gdbOutputStackFrameParse, htext, if_neg (Int.not_lt.mpr hfits), hnumber, haddress]
  rfl

theorem symbolFrom_in (p : CString) : symbolFrom (cstr " in " ++ p) = p := by
  have hskip : skipBlanks (blank :: (cstr "in " ++ p)) = cstr "in " ++ p := by
    rw [cstr_in, skipBlanks, List.dropWhile_cons_of_pos (by decide)]
    exact List.dropWhile_cons_of_neg (by decide)
  rw [symbolFrom, cstr_blank_in_blank, List.cons_append, hskip, dropWord_append, Option.getD_some]

namespace FrameLine

variable {parts : FrameLine}

/-- What stands behind the method. -/
def behindMethod (parts : FrameLine) : CString :=
  blank :: (parts.params ++ (cstr " at " ++ parts.file ++ cstr ":" ++ decimalNat parts.line ++
    [newline]))

theorem symbolText_eq (parts : FrameLine) :
    parts.symbolText = parts.method ++ parts.behindMethod := by
  rw [symbolText, behindMethod, cstr_blank]
  simp only [List.append_assoc, List.cons_append, List.nil_append]

theorem behindMethod_eq (hparts : parts.Separate) :
    ∃ more, parts.behindMethod = blank :: openParen :: more := by
  obtain ⟨inner, hinner⟩ := List.head?_eq_some_iff.mp hparts.params
  rw [behindMethod, hinner]
  exact ⟨_, rfl⟩

/-- A word that is not in front of the method is not in front of what follows either, unless it
goes on behind the method. -/
theorem prefix_symbolText {word : CString} (hword : word <+: parts.symbolText) :
    word <+: parts.method ∨
      ∃ front, word = parts.method ++ front ∧ front <+: parts.behindMethod := by
  rw [symbolText_eq] at hword
  rcases List.prefix_or_prefix_of_prefix hword (List.prefix_append _ _) with hfront | ⟨front, rfl⟩
  · exact .inl hfront
  · exact .inr ⟨front, rfl, (List.prefix_append_right_inj _).mp hword⟩

theorem not_prefix_symbolText (hparts : parts.Separate) {c d : CChar} (hd : d ≠ blank)
    (hword : ¬ [c, d] <+: parts.method) : ¬ [c, d] <+: parts.symbolText := by
  intro hfront
  rcases prefix_symbolText hfront with hmethod | ⟨front, hsplit, hbehind⟩
  · exact hword hmethod
  · rcases hmethod : parts.method with _ | ⟨e, _ | ⟨f, method⟩⟩
    · exact hparts.method_ne_nil hmethod
    · rw [hmethod] at hsplit
      obtain rfl : [d] = front := (List.cons.inj hsplit).2
      exact hd (List.cons_prefix_cons.mp hbehind).1
    · rw [hmethod] at hsplit hword
      obtain ⟨rfl, hrest⟩ := List.cons.inj hsplit
      obtain ⟨rfl, -⟩ := List.cons.inj hrest
      exact hword (List.prefix_append [c, d] method)

theorem Separate.symbolText_head (hparts : parts.Separate) :
    ∀ c ∈ parts.symbolText.head?, c ≠ blank ∧ c ≠ tab := by
  intro c hc
  rw [symbolText_eq, List.head?_append_of_ne_nil _ hparts.method_ne_nil] at hc
  exact hparts.method_blank c hc

/-- Only the method `in` begins a text with this word. -/
theorem Separate.not_in_symbolText (hparts : parts.Separate) (hin : parts.method ≠ cstr "in") :
    ¬ cstr "in " <+: parts.symbolText := by
  intro hfront
  rcases prefix_symbolText hfront with hmethod | ⟨front, hword, hbehind⟩
  · exact hparts.method_in hmethod
  · rw [cstr_in] at hword
    rcases hmethod : parts.method with _ | ⟨e, _ | ⟨f, _ | ⟨g, method⟩⟩⟩
    · exact hparts.method_ne_nil hmethod
    · rw [hmethod] at hword
      obtain rfl : [lowerN, blank] = front := (List.cons.inj hword).2
      exact absurd (List.cons_prefix_cons.mp hbehind).1 (by decide)
    · rw [hmethod] at hword hin
      obtain ⟨rfl, hrest⟩ := List.cons.inj hword
      obtain ⟨rfl, -⟩ := List.cons.inj hrest
      exact hin (by decide)
    · have hmethod' := hparts.method_in
      rw [hmethod] at hword hmethod'
      obtain ⟨rfl, hword'⟩ := List.cons.inj hword
      obtain ⟨rfl, hword''⟩ := List.cons.inj hword'
      obtain ⟨rfl, -⟩ := List.cons.inj hword''
      exact hmethod' (cstr_in ▸ List.prefix_append [lowerI, lowerN, blank] method)

/-- The blank behind the method `in` makes it the word in front of a method. -/
theorem symbolFrom_symbolText (hparts : parts.Separate) :
    symbolFrom parts.symbolText =
      if parts.method = cstr "in" then parts.behindMethod.tail else parts.symbolText := by
  rw [symbolFrom, skipBlanks_eq_self hparts.symbolText_head]
  split_ifs with hin
  · have htext : parts.symbolText = cstr "in " ++ parts.behindMethod.tail := by
      rw [symbolText_eq, hin, cstr_in_append, List.append_assoc]
      rfl
    rw [htext, dropWord_append, Option.getD_some]
  · rw [dropWord_eq_none (hparts.not_in_symbolText hin), Option.getD_none]

/-- The number and the address are found, and the method is looked for behind them. -/
theorem Separate.parse_text (hparts : parts.Separate) :
    gdbOutputStackFrameParse parts.text =
      .frame (frameFrom parts.frameNumber (parts.address.map addressText)
        (if parts.address = none ∧ parts.method = cstr "in" then parts.behindMethod.tail
        else parts.symbolText) parts.text) := by
  obtain ⟨c, blanks, hblanks⟩ := List.exists_cons_of_ne_nil hparts.blanks_ne_nil
  have hc : c = blank ∨ c = tab := hparts.blanks c (hblanks ▸ List.mem_cons_self)
  have hends (p : CString) :
      EndsNumber (parts.blanks ++ p) ∧ startsX (parts.blanks ++ p) = false := by
    rw [hblanks]
    rcases hc with rfl | rfl
    · exact ⟨endsNumber_cons (by decide) _, rfl⟩
    · exact ⟨endsNumber_cons (by decide) _, rfl⟩
  have hparse {behind behindAddress : CString} {address : Option CString}
      (htext : parts.text = cstr "#" ++ decimalNat parts.frameNumber ++ (parts.blanks ++ behind))
      (haddress : parseAddress (parts.blanks ++ behind) = (address, behindAddress)) :
      gdbOutputStackFrameParse parts.text =
        .frame (frameFrom parts.frameNumber address (symbolFrom behindAddress) parts.text) := by
    have hframe := frameText_number parts.frameNumber (parts.blanks ++ behind)
    rw [← htext] at hframe
    refine gdbOutputStackFrameParse_of hframe ?_
      (parseFrameNumber_decimalNat _ (hends behind).1 (hends behind).2) haddress
    rw [(takeWhile_decimalNat _ (hends behind).1).1, digitsValue_decimalNat]
    exact hparts.number_fits
  cases haddress : parts.address with
  | none =>
      have htext : parts.text =
          cstr "#" ++ decimalNat parts.frameNumber ++ (parts.blanks ++ parts.symbolText) := by
        rw [text, haddress, List.append_assoc]
      have hlower := cstr_0x ▸ hparts.method_address.1
      have hupper := cstr_0X ▸ hparts.method_address.2
      rw [hparse htext (parseAddress_none hparts.blanks hparts.symbolText_head
        (cstr_0x ▸ not_prefix_symbolText hparts (by decide) hlower)
        (cstr_0X ▸ not_prefix_symbolText hparts (by decide) hupper)),
        symbolFrom_symbolText hparts]
      simp only [true_and, Option.map_none]
  | some digits =>
      have htext : parts.text = cstr "#" ++ decimalNat parts.frameNumber ++
          (parts.blanks ++ (addressText digits ++ (cstr " in " ++ parts.symbolText))) := by
        rw [text, haddress]
        simp only [List.append_assoc]
      rw [hparse htext (parseAddress_hex hparts.blanks
        (hparts.address digits haddress) (endsHex_in _)), symbolFrom_in]
      simp only [reduceCtorEq, false_and, if_false, Option.map_some]

/-- From the method on, the parts that are found are those that were written, if the method and
the arguments end where they were written. -/
theorem Separate.frameFrom_symbolText (hparts : parts.Separate) (number : ℤ)
    (address : Option CString) (rawLine : CString)
    (hat : ¬ cstr " at" <:+ parts.method) :
    frameFrom number address parts.symbolText rawLine =
      let params := parseParams parts.behindMethod
      let file := parseFile params.2
      ⟨number, address, some parts.method, params.1, file.1, file.2, rawLine⟩ := by
  obtain ⟨more, hmore⟩ := behindMethod_eq hparts
  have hmethod := (splitMethod_params hparts.method_at hparts.method_params more).mpr hat
  rw [← hmore] at hmethod
  rw [symbolText_eq]
  simp only [frameFrom, hmethod, if_neg hparts.method_ne_nil]

/-- The file and the line are found behind the arguments. -/
theorem Separate.parseFile_behind (hparts : parts.Separate) :
    parseFile (cstr " at " ++ parts.file ++ cstr ":" ++ decimalNat parts.line ++ [newline]) =
      (some parts.file, (parts.line : ℤ)) :=
  parseFile_text hparts.file_ne_nil hparts.file_break.1 hparts.file_break.2 hparts.file_colon
    hparts.line_fits

/-- Where the arguments close at their end, they are found, and the file behind them. -/
theorem Separate.parse_of_stands (hparts : parts.Separate) (hstands : parts.MethodStands) :
    ∃ f, gdbOutputStackFrameParse parts.text = .frame f ∧
      (ClosesLast parts.params → f = parts.frame) ∧
      (f.params = some parts.params → ClosesLast parts.params) := by
  have hstart : ¬ (parts.address = none ∧ parts.method = cstr "in") := fun h => hstands.2 h.1 h.2
  refine ⟨_, by rw [hparts.parse_text, if_neg hstart,
    hparts.frameFrom_symbolText _ _ _ hstands.1], fun hcloses => ?_, fun hfound => ?_⟩
  · simp only [behindMethod, parseParams_of_closes hcloses, hparts.parseFile_behind]
    rfl
  · exact (closesLast_of_parseParams hfound).1

/-- Behind the word `in` the method is looked for from the arguments on, and these are not found
behind it. -/
theorem parseParams_in (hparts : parts.Separate) :
    (parseParams (splitMethod parts.behindMethod.tail).2).1 ≠ some parts.params := by
  intro hfound
  obtain ⟨inner, hinner⟩ := List.head?_eq_some_iff.mp hparts.params
  obtain ⟨tail, htail⟩ : ∃ tail, parts.behindMethod.tail = parts.params ++ (cstr " at " ++ tail) :=
    ⟨parts.file ++ (cstr ":" ++ (decimalNat parts.line ++ [newline])), by
      simp only [behindMethod, List.tail_cons, List.append_assoc]⟩
  have hfront : (splitMethod parts.behindMethod.tail).1 ≠ [] := by
    rw [htail, hinner]
    exact splitMethod_openParen _
  obtain ⟨behind, hbehind⟩ : (splitMethod parts.behindMethod.tail).1 <+: parts.params := by
    rw [htail]
    exact splitMethod_prefix (.inl (List.prefix_append _ tail)) parts.params
  have hrest : (splitMethod parts.behindMethod.tail).2 = behind ++ (cstr " at " ++ tail) := by
    have happend := splitMethod_append parts.behindMethod.tail
    have hsplit : parts.behindMethod.tail =
        (splitMethod parts.behindMethod.tail).1 ++ (behind ++ (cstr " at " ++ tail)) := by
      rw [← List.append_assoc, hbehind, htail]
    exact List.append_cancel_left (happend.trans hsplit)
  rw [hrest] at hfound
  cases behind with
  | nil =>
      rw [List.nil_append, parseParams_at] at hfound
      cases hfound
  | cons c behind =>
      obtain ⟨hcloses, blanks, rest, hblanks, hsplit⟩ := closesLast_of_parseParams hfound
      exact hcloses.not_append hfront (List.cons_ne_nil c behind) hbehind.symm hblanks rest _ hsplit

/-- Behind a method that is taken for a word, the arguments are not found. -/
theorem Separate.methodStands_of_params (hparts : parts.Separate) {f : StackFrame}
    (hparse : gdbOutputStackFrameParse parts.text = .frame f)
    (hparams : f.params = some parts.params) : parts.MethodStands := by
  obtain ⟨more, hmore⟩ := behindMethod_eq hparts
  rw [hparts.parse_text, FrameParse.frame.injEq] at hparse
  by_cases hstart : parts.address = none ∧ parts.method = cstr "in"
  · rw [if_pos hstart] at hparse
    subst hparse
    exact absurd hparams (parseParams_in hparts)
  · rw [if_neg hstart] at hparse
    subst hparse
    refine ⟨?_, fun hnone hin => hstart ⟨hnone, hin⟩⟩
    rintro ⟨front, hfront⟩
    -- the method is cut at its own ` at`, which the blank in front of the arguments completes
    have hat : cstr " at" ++ blank :: openParen :: more = cstr " at " ++ openParen :: more := by
      rw [cstr_at_append, List.append_assoc]
      rfl
    have htext : parts.symbolText = front ++ (cstr " at " ++ openParen :: more) := by
      rw [symbolText_eq, hmore, ← hfront, List.append_assoc, hat]
    have hmethod : splitMethod (front ++ (cstr " at " ++ openParen :: more)) =
        (front, cstr " at " ++ openParen :: more) := by
      refine (splitMethod_eq_iff (.inl (List.prefix_append _ _)) front).mpr ?_
      intro before after hsplit hafter hstop
      have hwithin {word : CString} (hword : word <+: after ++ cstr " at") :
          word <:+: parts.method := by
        rw [← hfront, hsplit, List.append_assoc]
        exact hword.isInfix.trans (List.suffix_append before _).isInfix
      rw [← hat, ← List.append_assoc] at hstop
      have hne := List.append_ne_nil_of_left_ne_nil hafter (cstr " at")
      rcases (stopsMethod_append_iff hne more).mp hstop with hword | hword | hends
      · exact hparts.method_at (hwithin hword)
      · exact hparts.method_params (hwithin hword)
      · exact hafter (List.append_left_eq_self.mp hends)
    have hnone := parseParams_at (openParen :: more)
    simp only [frameFrom, htext, hmethod, hnone, reduceCtorEq] at hparams

/-- **A frame line is parsed into its parts** exactly if its method is not taken for one of the
words around it. -/
theorem parse_text_iff (hparts : parts.Separate) (hparams : ClosesLast parts.params) :
    gdbOutputStackFrameParse parts.text = .frame parts.frame ↔ parts.MethodStands := by
  refine ⟨fun hparse => hparts.methodStands_of_params hparse rfl, fun hstands => ?_⟩
  obtain ⟨f, hparse, hframe, -⟩ := hparts.parse_of_stands hstands
  rw [hparse, hframe hparams]

/-- A frame without an address, at line 3 of `a.c`. -/
def sample (method params : CString) : FrameLine where
  frameNumber := 0
  blanks := cstr "  "
  address := none
  method := method
  params := params
  file := cstr "a.c"
  line := 3

theorem separate_sample {method params : CString}
    (hmethod : method ∈ [cstr "in", cstr "main"]) (hparams : params.head? = some openParen) :
    (sample method params).Separate := by
  have hblanks : cstr "  " ≠ [] ∧ ∀ c ∈ cstr "  ", c = blank ∨ c = tab := by decide
  have hfile : cstr "a.c" ≠ [] ∧ (newline ∉ cstr "a.c" ∧ carriageReturn ∉ cstr "a.c") ∧
      colon ∉ cstr "a.c" := by decide
  have hall : ∀ method ∈ [cstr "in", cstr "main"], method ≠ [] ∧
      (∀ c ∈ method.head?, c ≠ blank ∧ c ≠ tab) ∧
      (¬ cstr "0x" <+: method ∧ ¬ cstr "0X" <+: method) ∧ ¬ cstr "in " <+: method ∧
      ¬ cstr " at " <:+: method ∧ ¬ cstr " (" <:+: method := by decide
  obtain ⟨hne, hhead, haddress, hin, hat, hparen⟩ := hall method hmethod
  exact
    { number_fits := show (0 : ℤ) ≤ intMax by decide
      blanks_ne_nil := hblanks.1
      blanks := hblanks.2
      address := fun digits hdigits => by cases hdigits
      method_ne_nil := hne
      method_blank := hhead
      method_address := haddress
      method_in := hin
      method_at := hat
      method_params := hparen
      params := hparams
      file_ne_nil := hfile.1
      file_break := hfile.2.1
      file_colon := fun front c back hsplit => by
        have hsplit' : cstr "a.c" = front ++ colon :: c :: back := hsplit
        exact absurd (hsplit' ▸ List.mem_append_right front List.mem_cons_self) hfile.2.2
      line_fits := show (3 : ℤ) ≤ intMax by decide }

theorem closesLast_argc : ClosesLast (cstr "(argc=1)") := by
  have hsplit : splitParams 1 (cstr "argc=1)") = (some (cstr "argc=1)"), []) := by decide
  exact ⟨cstr "argc=1)", by decide, ((splitParams_eq_some_iff 1 _ _ _).mp hsplit).2⟩

/-- `#0  main (argc=1) at a.c:3`. -/
theorem parse_text_main :
    gdbOutputStackFrameParse (sample (cstr "main") (cstr "(argc=1)")).text =
      .frame (sample (cstr "main") (cstr "(argc=1)")).frame := by
  refine (parse_text_iff (separate_sample (by decide) (by decide)) closesLast_argc).mpr
    ⟨?_, fun _ => ?_⟩
  · decide
  · decide

/-- `#0  in (argc=1) at a.c:3`: the function `in` is taken for the word. -/
theorem not_parse_text : ¬ ∀ parts : FrameLine, parts.Separate → ClosesLast parts.params →
    gdbOutputStackFrameParse parts.text = .frame parts.frame := by
  intro hall
  have hparse := hall (sample (cstr "in") (cstr "(argc=1)"))
    (separate_sample (by decide) (by decide)) closesLast_argc
  exact absurd hparse (by decide +kernel)

/-! ## Literals in the arguments -/

/-- What gdb prints between two quotes: a quote or a backslash has a backslash in front. -/
inductive LiteralBody (quote : CChar) : CString → Prop
  | nil : LiteralBody quote []
  | plain {c : CChar} {body : CString} :
      c ≠ quote → c ≠ backslash → LiteralBody quote body → LiteralBody quote (c :: body)
  | escape (c : CChar) {body : CString} :
      LiteralBody quote body → LiteralBody quote (backslash :: c :: body)

/-- The text of arguments: parentheses in pairs, and literals with anything that is allowed
between their quotes. -/
inductive ArgumentText (allowed : CString → Prop) : CString → Prop
  | nil : ArgumentText allowed []
  | plain {c : CChar} {more : CString} : c ≠ openParen → c ≠ closeParen → isQuote c = false →
      ArgumentText allowed more → ArgumentText allowed (c :: more)
  | group {inner more : CString} : ArgumentText allowed inner → ArgumentText allowed more →
      ArgumentText allowed (openParen :: inner ++ closeParen :: more)
  | literal {quote : CChar} {body more : CString} : isQuote quote = true →
      LiteralBody quote body → allowed body → ArgumentText allowed more →
      ArgumentText allowed (quote :: body ++ quote :: more)

/-- A list of arguments. -/
def IsArgumentList (allowed : CString → Prop) (params : CString) : Prop :=
  ∃ inner, ArgumentText allowed inner ∧ params = openParen :: inner ++ [closeParen]

/-- The parentheses come in pairs. -/
def Nested (text : CString) : Prop :=
  text.count closeParen = text.count openParen ∧
    ∀ front, front <+: text → front.count closeParen ≤ front.count openParen

theorem Nested.append {first second : CString} (hfirst : Nested first) (hsecond : Nested second) :
    Nested (first ++ second) := by
  refine ⟨?_, fun front hfront => ?_⟩
  · rw [List.count_append, List.count_append, hfirst.1, hsecond.1]
  · rcases List.prefix_or_prefix_of_prefix hfront (List.prefix_append first second) with
      hshort | ⟨more, rfl⟩
    · exact hfirst.2 front hshort
    · rw [List.count_append, List.count_append, hfirst.1]
      exact Nat.add_le_add_left
        (hsecond.2 more ((List.prefix_append_right_inj first).mp hfront)) _

/-- A character that is no parenthesis. -/
theorem nested_singleton {c : CChar} (hopen : c ≠ openParen) (hclose : c ≠ closeParen) :
    Nested [c] := by
  have hcount : [c].count closeParen = 0 := by
    rw [List.count_cons_of_ne hclose, List.count_nil]
  refine ⟨?_, fun front hfront => ?_⟩
  · rw [hcount, List.count_cons_of_ne hopen, List.count_nil]
  · exact (hfront.sublist.count_le closeParen).trans (hcount ▸ Nat.zero_le _)

theorem nested_of_isQuote {quote : CChar} (hquote : isQuote quote = true) : Nested [quote] := by
  apply nested_singleton
  · rintro rfl
    exact absurd hquote (by decide)
  · rintro rfl
    exact absurd hquote (by decide)

/-- A pair of parentheses closes at its last character. -/
theorem Nested.closes {inner : CString} (hinner : Nested inner) :
    Closes 1 (inner ++ [closeParen]) := by
  have hne : openParen ≠ closeParen := by decide
  refine ⟨?_, fun front hfront hneq => ?_⟩
  · rw [List.count_append, List.count_append, hinner.1, List.count_singleton_self,
      List.count_singleton]
    simp [hne.symm, Nat.add_comm]
  · have hshort : front <+: inner := by
      rcases List.prefix_concat_iff.mp hfront with heq | hshort
      · exact absurd heq hneq
      · exact hshort
    exact Nat.lt_one_add_iff.mpr (hinner.2 front hshort)

theorem Nested.group {inner : CString} (hinner : Nested inner) :
    Nested (openParen :: inner ++ [closeParen]) := by
  obtain ⟨hcount, hfronts⟩ := hinner.closes
  have hne : openParen ≠ closeParen := by decide
  refine ⟨?_, fun front hfront => ?_⟩
  · rw [List.cons_append, List.count_cons_of_ne hne, List.count_cons_self, hcount, Nat.add_comm]
  · cases front with
    | nil => exact Nat.le_refl _
    | cons c front =>
        rw [List.cons_append] at hfront
        obtain ⟨rfl, hfront'⟩ := List.cons_prefix_cons.mp hfront
        rw [List.count_cons_of_ne hne, List.count_cons_self]
        by_cases heq : front = inner ++ [closeParen]
        · rw [heq, hcount, Nat.add_comm]
        · have hlt := hfronts front hfront' heq
          omega

/-- So does a whole list of arguments in which no literal has an odd parenthesis. -/
theorem IsArgumentList.closesLast {params : CString} (hparams : IsArgumentList Nested params) :
    ClosesLast params := by
  obtain ⟨inner, htext, rfl⟩ := hparams
  have hnested : Nested inner := by
    induction htext with
    | nil => exact ⟨rfl, fun front hfront => by rw [List.prefix_nil.mp hfront]; exact Nat.le_refl _⟩
    | plain hopen hclose _ _ ih => exact (nested_singleton hopen hclose).append ih
    | group _ _ ihinner ihmore =>
        have happend := ihinner.group.append ihmore
        simpa only [List.append_assoc, List.cons_append, List.nil_append] using happend
    | literal hquote _ hbody _ ih =>
        have hsingle := nested_of_isQuote hquote
        have happend := hsingle.append (hbody.append (hsingle.append ih))
        simpa only [List.append_assoc, List.cons_append, List.nil_append] using happend
  exact ⟨inner ++ [closeParen], rfl, hnested.closes⟩

/-- The arguments are found, and the file and the line behind them. -/
def FindsArguments (parts : FrameLine) : Prop :=
  ∃ f, gdbOutputStackFrameParse parts.text = .frame f ∧ f.params = some parts.params ∧
    f.file = some parts.file ∧ f.line = parts.line

/-- **Parentheses in literals are counted**: the arguments are found exactly if the method
stands and the first parenthesis is closed by their last character when all of them are
counted. -/
theorem findsArguments_iff (hparts : parts.Separate) :
    parts.FindsArguments ↔ parts.MethodStands ∧ ClosesLast parts.params := by
  constructor
  · rintro ⟨f, hparse, hparams, -⟩
    have hstands := hparts.methodStands_of_params hparse hparams
    obtain ⟨g, hparse', -, hfound⟩ := hparts.parse_of_stands hstands
    obtain rfl := FrameParse.frame.inj (hparse.symm.trans hparse')
    exact ⟨hstands, hfound hparams⟩
  · rintro ⟨hstands, hcloses⟩
    obtain ⟨f, hparse, hframe, -⟩ := hparts.parse_of_stands hstands
    refine ⟨f, hparse, ?_⟩
    rw [hframe hcloses]
    exact ⟨rfl, rfl, rfl⟩

/-- `#0  main (argc=1) at a.c:3`. -/
theorem findsArguments_main : (sample (cstr "main") (cstr "(argc=1)")).FindsArguments := by
  refine (findsArguments_iff (separate_sample (by decide) (by decide))).mpr
    ⟨⟨?_, fun _ => ?_⟩, closesLast_argc⟩
  · decide
  · decide

/-- `#0  main (s=")") at a.c:3`: the arguments end in the literal. -/
theorem not_findsArguments : ¬ ∀ parts : FrameLine, parts.Separate → parts.MethodStands →
    IsArgumentList (fun _ => True) parts.params → parts.FindsArguments := by
  intro hall
  have hparams : IsArgumentList (fun _ => True) (cstr "(s=\")\")") := by
    refine ⟨cstr "s=\")\"", ?_, by decide⟩
    have hinner : cstr "s=\")\"" = CChar.lowerS :: CChar.equals ::
        (doubleQuote :: [closeParen] ++ doubleQuote :: []) := by decide
    rw [hinner]
    refine .plain (by decide) (by decide) (by decide)
      (.plain (by decide) (by decide) (by decide) (.literal (by decide) ?_ trivial .nil))
    exact .plain (by decide) (by decide) .nil
  have hstands : (sample (cstr "main") (cstr "(s=\")\")")).MethodStands :=
    ⟨by decide, fun _ => by decide⟩
  obtain ⟨f, hparse, hfound, -⟩ := hall (sample (cstr "main") (cstr "(s=\")\")"))
    (separate_sample (by decide) (by decide)) hstands hparams
  have hcut : gdbOutputStackFrameParse (sample (cstr "main") (cstr "(s=\")\")")).text =
      .frame ⟨0, none, some (cstr "main"), some (cstr "(s=\")"), none, 0,
        (sample (cstr "main") (cstr "(s=\")\")")).text⟩ := by decide +kernel
  obtain rfl := FrameParse.frame.inj (hparse.symm.trans hcut)
  exact absurd hfound (by decide)

end FrameLine

/-- `#n 0xA in r`. -/
def spacedLine (n : ℕ) (digits rest : CString) : CString :=
  cstr "#" ++ decimalNat n ++ (cstr " " ++ (FrameLine.addressText digits ++ (cstr " in " ++ rest)))

/-- `#n0xA in r`. -/
def compactLine (n : ℕ) (digits rest : CString) : CString :=
  cstr "#" ++ decimalNat n ++ (FrameLine.addressText digits ++ (cstr " in " ++ rest))

/-- Two lines are parsed into frames with the same parts. -/
def SameParts (first second : CString) : Prop :=
  ∃ f g, gdbOutputStackFrameParse first = .frame f ∧ gdbOutputStackFrameParse second = .frame g ∧
    f.frameNumber = g.frameNumber ∧ f.address = g.address ∧ f.method = g.method ∧
    f.params = g.params ∧ f.file = g.file ∧ f.line = g.line

/-- What is found from the address on. -/
def partsFrom (n : ℕ) (digits rest rawLine : CString) : FrameParse :=
  .frame (frameFrom n (some (FrameLine.addressText digits)) rest rawLine)

theorem addressText_append (digits rest : CString) :
    FrameLine.addressText digits ++ rest = CChar.digit 0 :: (lowerX :: (digits ++ rest)) := by
  rw [FrameLine.addressText, cstr_0x]
  rfl

theorem parse_spacedLine {n : ℕ} (hn : n ≤ intMax) {digits : CString}
    (hdigits : ∀ c ∈ digits, isxdigit c = true) (rest : CString) :
    gdbOutputStackFrameParse (spacedLine n digits rest) =
      partsFrom n digits rest (spacedLine n digits rest) := by
  have hends :
      EndsNumber (cstr " " ++ (FrameLine.addressText digits ++ (cstr " in " ++ rest))) := by
    rw [cstr_blank]
    exact endsNumber_cons (by decide) _
  have hblank : ∀ c ∈ cstr " ", c = blank ∨ c = tab := by decide
  have hx :
      startsX (cstr " " ++ (FrameLine.addressText digits ++ (cstr " in " ++ rest))) = false := by
    rw [cstr_blank]
    rfl
  have hvalue : digitsValue ((decimalNat n ++ (cstr " " ++ (FrameLine.addressText digits ++
      (cstr " in " ++ rest)))).takeWhile isdigit) ≤ intMax := by
    rw [(takeWhile_decimalNat n hends).1, digitsValue_decimalNat]
    exact hn
  have hparse := gdbOutputStackFrameParse_of (frameText_number n _) hvalue
    (parseFrameNumber_decimalNat n hends hx) (parseAddress_hex hblank hdigits (endsHex_in rest))
  rwa [symbolFrom_in] at hparse

/-- The digits of the number with the `0` of the address. -/
theorem takeWhile_compact (n : ℕ) (digits rest : CString) :
    ((decimalNat n ++ (FrameLine.addressText digits ++ rest)).takeWhile isdigit) =
      decimalNat n ++ [CChar.digit 0] := by
  have hdigits := isdigit_of_mem_concat_zero n
  have hends : EndsNumber (lowerX :: (digits ++ rest)) :=
    endsNumber_cons (by decide) _
  rw [addressText_append, ← List.singleton_append, ← List.append_assoc]
  exact (takeWhile_isdigit_append hdigits hends).1

theorem parse_compactLine {n : ℕ} (hn : n ≠ 0) (hfits : 10 * n ≤ intMax) {digits : CString}
    (hdigits : ∀ c ∈ digits, isxdigit c = true) (rest : CString) :
    gdbOutputStackFrameParse (compactLine n digits rest) =
      partsFrom n digits rest (compactLine n digits rest) := by
  have hends : EndsNumber (lowerX :: (digits ++ (cstr " in " ++ rest))) :=
    endsNumber_cons (by decide) _
  have hnumber := parseFrameNumber_compact hn (by rfl) hends
  rw [← addressText_append] at hnumber
  have hvalue : digitsValue ((decimalNat n ++ (FrameLine.addressText digits ++
      (cstr " in " ++ rest))).takeWhile isdigit) ≤ intMax := by
    rw [takeWhile_compact, digitsValue_concat, digitsValue_decimalNat, digitValue_digit]
    omega
  have hnil : ∀ c ∈ ([] : CString), c = blank ∨ c = tab := fun c hc => absurd hc List.not_mem_nil
  have hparse := gdbOutputStackFrameParse_of (frameText_number n _) hvalue hnumber
    (parseAddress_hex hnil hdigits (endsHex_in rest))
  rwa [symbolFrom_in] at hparse

/-- In the compact line of frame 0 no address is found. -/
theorem parse_compactLine_zero (digits rest : CString) :
    ∃ f, gdbOutputStackFrameParse (compactLine 0 digits rest) = .frame f ∧ f.address = none := by
  have hends : EndsNumber (lowerX :: (digits ++ (cstr " in " ++ rest))) :=
    endsNumber_cons (by decide) _
  have hnumber := parseFrameNumber_zero hends
  rw [← addressText_append] at hnumber
  have hvalue : digitsValue ((decimalNat 0 ++ (FrameLine.addressText digits ++
      (cstr " in " ++ rest))).takeWhile isdigit) ≤ intMax := by
    rw [takeWhile_compact, digitsValue_concat, digitsValue_decimalNat, digitValue_digit]
    decide
  have haddress : parseAddress (lowerX :: (digits ++ (cstr " in " ++ rest))) =
      (none, lowerX :: (digits ++ (cstr " in " ++ rest))) := by
    rw [parseAddress, skipBlanks, List.dropWhile_cons_of_neg (by decide)]
    exact if_neg fun hstart => absurd (Option.some.inj hstart.1) (by decide)
  exact ⟨_, gdbOutputStackFrameParse_of (frameText_number 0 _) hvalue hnumber haddress, rfl⟩

/-- The lines of frame 0 do not have the same address. -/
theorem not_sameParts_frameZero {digits : CString} (hdigits : ∀ c ∈ digits, isxdigit c = true)
    (rest : CString) : ¬ SameParts (spacedLine 0 digits rest) (compactLine 0 digits rest) := by
  rintro ⟨f, g, hf, hg, -, haddress, -⟩
  obtain ⟨h, hh, hnone⟩ := parse_compactLine_zero digits rest
  have hspaced := parse_spacedLine (n := 0) (by decide) hdigits rest
  obtain rfl := FrameParse.frame.inj (hg.symm.trans hh)
  obtain rfl := FrameParse.frame.inj (hf.symm.trans hspaced)
  rw [hnone] at haddress
  cases haddress

/-- **The two forms of a line agree** for all frames but frame 0. -/
theorem sameParts_iff {n : ℕ} (hfits : 10 * n ≤ intMax) {digits : CString}
    (hdigits : ∀ c ∈ digits, isxdigit c = true) (rest : CString) :
    SameParts (spacedLine n digits rest) (compactLine n digits rest) ↔ n ≠ 0 := by
  constructor
  · rintro hsame rfl
    exact not_sameParts_frameZero hdigits rest hsame
  · intro hn
    have hspaced := parse_spacedLine (n := n) (by omega) hdigits rest
    exact ⟨_, _, hspaced, parse_compactLine hn hfits hdigits rest, rfl, rfl, rfl, rfl, rfl, rfl⟩

/-- `#10 0x7f in f` and `#100x7f in f`. -/
theorem sameParts_ten :
    SameParts (spacedLine 10 (cstr "7f") (cstr "f")) (compactLine 10 (cstr "7f") (cstr "f")) :=
  (sameParts_iff (by decide) (by decide) _).mpr (by decide)

/-- `#0 0x7f in f` and `#00x7f in f`. -/
theorem not_sameParts_zero : ¬ ∀ (n : ℕ) (digits rest : CString), 10 * n ≤ intMax →
    (∀ c ∈ digits, isxdigit c = true) →
      SameParts (spacedLine n digits rest) (compactLine n digits rest) := by
  intro hall
  have hdigits : ∀ c ∈ cstr "7f", isxdigit c = true := by decide
  exact not_sameParts_frameZero hdigits (cstr "f")
    (hall 0 (cstr "7f") (cstr "f") (by decide) hdigits)

end BasC
