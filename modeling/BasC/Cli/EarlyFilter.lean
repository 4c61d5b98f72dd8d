/-
# The early filter of an enumeration

`expand_wildcard` hands the enumeration function the part of the pattern in front of its
first wildcard, so that names which do not start with it need not be reported. The part is
taken byte by byte, while `fnmatch` reads a backslash as an escape. This module determines
the patterns for which no match is hidden: those with no backslash in that part, those that
match nothing at all, and those whose part ends in doubled backslashes and whose wildcards
only match backslashes in turn.
-/

import BasC.Cli.QuotedWildcards

namespace BasC

open CChar Lib

/-- The part of a pattern in front of its first wildcard. -/
def literalPart (filePattern : CString) : CString :=
  filePattern.takeWhile fun c => !isWildcardByte c

/-- The pattern from its first wildcard on. -/
def wildPart (filePattern : CString) : CString :=
  filePattern.dropWhile fun c => !isWildcardByte c

theorem literalPart_append_wildPart (filePattern : CString) :
    literalPart filePattern ++ wildPart filePattern = filePattern :=
  List.takeWhile_append_dropWhile

theorem filenamePrefix_eq {filePattern : CString} (hfits : filePattern.length < 256) :
    filenamePrefix filePattern = literalPart filePattern := by
  have hliteral : (literalPart filePattern).length < 256 :=
    (List.takeWhile_prefix _).length_le.trans_lt hfits
  unfold filenamePrefix
  by_cases hwild : filePattern.any isWildcardByte = true
  · by_cases hempty : literalPart filePattern = []
    · simp only [literalPart] at hempty ⊢
      simp [hwild, hempty]
    · have hpos : 0 < (literalPart filePattern).length := List.length_pos_iff.mpr hempty
      simp only [literalPart] at hliteral hpos ⊢
      simp [hwild, hpos, hliteral]
  · have hwhole : literalPart filePattern = filePattern := by
      apply List.takeWhile_eq_self_iff.mpr
      simpa using hwild
    simp only [literalPart] at hwhole ⊢
    rw [hwhole]
    cases filePattern with
    | nil => rfl
    | cons c filePattern => simp [hwild, bounded_eq_self hfits]

theorem patternParts_snd_length_lt (pattern : CString) : (patternParts pattern).2.length < 256 := by
  unfold patternParts
  cases strrchr pattern slash with
  | none => simp [bounded]
  | some cut => simp [bounded]

theorem slash_not_mem_patternParts_snd (pattern : CString) : slash ∉ (patternParts pattern).2 := by
  intro hmem
  unfold patternParts at hmem
  cases hcut : strrchr pattern slash with
  | none =>
      rw [hcut] at hmem
      exact (strrchr_eq_none_iff pattern slash).mp hcut (List.mem_of_mem_take hmem)
  | some cut =>
      obtain ⟨dir, lastSlash⟩ := cut
      obtain ⟨-, tail, rfl, htail⟩ := strrchr_eq_some hcut
      rw [hcut] at hmem
      exact htail (List.mem_of_mem_take hmem)

/-- The hint that `expand_wildcard` passes on; `NULL` and the empty prefix ask for all names. -/
def hint (env : ArgsEnv) (pattern : CString) : CString :=
  (wildcardCall env pattern).prefixArg.getD []

theorem hint_eq (env : ArgsEnv) (pattern : CString) :
    hint env pattern = literalPart (patternParts pattern).2 := by
  rw [← filenamePrefix_eq (patternParts_snd_length_lt pattern)]
  simp only [hint, wildcardCall]
  split
  · rfl
  · rename_i hempty
    have hnil : filenamePrefix (patternParts pattern).2 = [] := by
      simpa using hempty
    rw [hnil]
    rfl

/-- No file name is accepted. A file name has no slash. -/
def AcceptsNone (filePattern : CString) : Prop :=
  ∀ name, slash ∉ name → fnmatch filePattern name = false

/-- Every accepted file name starts with `lead`. -/
def AcceptedStartWith (lead filePattern : CString) : Prop :=
  ∀ name, slash ∉ name → fnmatch filePattern name = true → lead <+: name

theorem AcceptsNone.startWith {filePattern : CString} (hnone : AcceptsNone filePattern)
    (lead : CString) : AcceptedStartWith lead filePattern := by
  intro name hslash haccepts
  rw [hnone name hslash] at haccepts
  cases haccepts

section FirstByte

variable {filePattern rest lead : CString} {b d : CChar}

/-- A pattern that takes one byte literally accepts what its rest accepts behind that byte. -/
theorem acceptsNone_iff_of_first (hfirst : ∀ name, fnmatch filePattern name =
      (decide (name.head? = some d) && fnmatch rest name.tail)) (hd : d ≠ slash) :
    AcceptsNone filePattern ↔ AcceptsNone rest := by
  constructor
  · intro hnone name hslash
    have hname := hnone (d :: name) (by simp [hslash, Ne.symm hd])
    simpa [hfirst] using hname
  · intro hnone name hslash
    have htail : slash ∉ name.tail := fun hmem => hslash (List.mem_of_mem_tail hmem)
    rw [hfirst, hnone name.tail htail, Bool.and_false]

theorem acceptedStartWith_cons_iff (hfirst : ∀ name, fnmatch filePattern name =
      (decide (name.head? = some d) && fnmatch rest name.tail)) (hd : d ≠ slash) :
    AcceptedStartWith (d :: lead) filePattern ↔ AcceptedStartWith lead rest := by
  constructor
  · intro hstart name hslash haccepts
    have hname := hstart (d :: name) (by simp [hslash, Ne.symm hd]) (by simp [hfirst, haccepts])
    exact (List.cons_prefix_cons.mp hname).2
  · intro hstart name hslash haccepts
    rw [hfirst, Bool.and_eq_true, decide_eq_true_eq] at haccepts
    obtain ⟨hhead, hrest⟩ := haccepts
    obtain ⟨tail, rfl⟩ := List.head?_eq_some_iff.mp hhead
    rw [List.mem_cons, not_or] at hslash
    exact List.cons_prefix_cons.mpr ⟨rfl, hstart tail hslash.2 hrest⟩

/-- No name starts with one byte and with another. -/
theorem acceptedStartWith_iff_of_ne (hfirst : ∀ name, fnmatch filePattern name =
      (decide (name.head? = some d) && fnmatch rest name.tail)) (hne : b ≠ d) :
    AcceptedStartWith (b :: lead) filePattern ↔ AcceptsNone filePattern := by
  constructor
  · intro hstart name hslash
    by_contra haccepts
    rw [Bool.not_eq_false] at haccepts
    have hprefix := hstart name hslash haccepts
    rw [hfirst, Bool.and_eq_true, decide_eq_true_eq] at haccepts
    obtain ⟨tail, rfl⟩ := List.head?_eq_some_iff.mp haccepts.1
    exact hne (List.cons_prefix_cons.mp hprefix).1
  · exact fun hnone => hnone.startWith _

end FirstByte

/-- Behind `k` backslashes that are still owed, the literal part shows up in every accepted
name: it is free of backslashes up to doubled ones at its end, and what its wildcards accept
makes up for the halves. -/
def Doubled (k : ℕ) (literal rest : CString) : Prop :=
  ∃ plain j, literal = plain ++ List.replicate (2 * j) backslash ∧ backslash ∉ plain ∧
    (k = 0 ∨ plain = []) ∧ AcceptedStartWith (List.replicate (k + j) backslash) rest

variable {k : ℕ} {c : CChar} {literal rest : CString}

theorem doubled_nil_iff :
    Doubled k [] rest ↔ AcceptedStartWith (List.replicate k backslash) rest := by
  constructor
  · rintro ⟨plain, j, hliteral, -, -, hstart⟩
    obtain ⟨-, hzero⟩ := List.append_eq_nil_iff.mp hliteral.symm
    rw [List.replicate_eq_nil_iff] at hzero
    obtain rfl : j = 0 := by omega
    exact hstart
  · intro hstart
    exact ⟨[], 0, rfl, List.not_mem_nil, .inr rfl, hstart⟩

/-- An ordinary byte shows up as it is, with no backslash owed. -/
theorem doubled_zero_cons_iff (hc : c ≠ backslash) :
    Doubled 0 (c :: literal) rest ↔ Doubled 0 literal rest := by
  constructor
  · rintro ⟨plain, j, hliteral, hplain, -, hstart⟩
    cases plain with
    | nil =>
        have hmem : c ∈ List.replicate (2 * j) backslash := by
          rw [← List.nil_append (List.replicate _ _), ← hliteral]
          exact List.mem_cons_self
        exact absurd (List.eq_of_mem_replicate hmem) hc
    | cons d plain =>
        obtain ⟨-, hliteral⟩ := List.cons.inj hliteral
        rw [List.mem_cons, not_or] at hplain
        exact ⟨plain, j, hliteral, hplain.2, .inl rfl, hstart⟩
  · rintro ⟨plain, j, rfl, hplain, -, hstart⟩
    exact ⟨c :: plain, j, rfl, by simp [hplain, Ne.symm hc], .inl rfl, hstart⟩

theorem not_doubled_succ_cons (hc : c ≠ backslash) : ¬ Doubled (k + 1) (c :: literal) rest := by
  rintro ⟨plain, j, hliteral, -, hplain, -⟩
  obtain rfl : plain = [] := hplain.resolve_left (Nat.succ_ne_zero k)
  have hmem : c ∈ List.replicate (2 * j) backslash := by
    rw [← List.nil_append (List.replicate _ _), ← hliteral]
    exact List.mem_cons_self
  exact hc (List.eq_of_mem_replicate hmem)

/-- The part from a backslash on is doubled backslashes and nothing else. -/
theorem doubled_backslash_iff :
    Doubled k (backslash :: literal) rest ↔
      ∃ tail, literal = backslash :: tail ∧ Doubled (k + 1) tail rest := by
  constructor
  · rintro ⟨plain, j, hliteral, hplain, -, hstart⟩
    cases plain with
    | cons d plain =>
        obtain ⟨rfl, -⟩ := List.cons.inj hliteral
        exact absurd List.mem_cons_self hplain
    | nil =>
        cases j with
        | zero => cases hliteral
        | succ j =>
            obtain ⟨-, rfl⟩ := List.cons.inj hliteral
            refine ⟨List.replicate (2 * j) backslash, rfl, [], j, rfl, List.not_mem_nil, .inr rfl,
              ?_⟩
            rwa [Nat.add_assoc, Nat.add_comm 1 j]
  · rintro ⟨tail, rfl, plain, j, rfl, -, hplain, hstart⟩
    obtain rfl : plain = [] := hplain.resolve_left (Nat.succ_ne_zero k)
    refine ⟨[], j + 1, rfl, List.not_mem_nil, .inr rfl, ?_⟩
    rwa [Nat.add_assoc, Nat.add_comm 1 j] at hstart

/-- The last backslash owed is as good as the first. -/
theorem replicate_append_backslash (k : ℕ) (text : CString) :
    List.replicate k backslash ++ backslash :: text =
      backslash :: (List.replicate k backslash ++ text) := by
  induction k with
  | zero => rfl
  | succ k ih => rw [List.replicate_succ, List.cons_append, ih, List.cons_append]

/-- An ordinary byte in front of a literal part. -/
theorem acceptedStartWith_ordinary_iff (hwild : isWildcardByte c = false) (hslash : c ≠ slash)
    (hc : c ≠ backslash)
    (ih : AcceptedStartWith literal (literal ++ rest) ↔
      AcceptsNone (literal ++ rest) ∨ Doubled 0 literal rest) :
    AcceptedStartWith (List.replicate k backslash ++ c :: literal) (c :: literal ++ rest) ↔
      AcceptsNone (c :: literal ++ rest) ∨ Doubled k (c :: literal) rest := by
  have hnotWild : c ≠ star ∧ c ≠ question ∧ c ≠ openBracket := by
    simpa [isWildcardByte, and_assoc] using hwild
  have hfirst := fun name => fnmatch_cons (literal ++ rest) name hnotWild hc
  rw [List.cons_append]
  cases k with
  | zero =>
      rw [List.replicate_zero, List.nil_append, acceptedStartWith_cons_iff hfirst hslash, ih,
        acceptsNone_iff_of_first hfirst hslash, doubled_zero_cons_iff hc]
  | succ k =>
      rw [List.replicate_succ, List.cons_append,
        acceptedStartWith_iff_of_ne hfirst (Ne.symm hc)]
      simp [not_doubled_succ_cons hc]

/-- A backslash escapes the first wildcard. -/
theorem acceptedStartWith_backslash_iff (hrest : ∀ w ∈ rest.head?, isWildcardByte w = true) :
    AcceptedStartWith (List.replicate k backslash ++ [backslash]) ([backslash] ++ rest) ↔
      AcceptsNone ([backslash] ++ rest) ∨ Doubled k [backslash] rest := by
  have hnot : ¬ Doubled k [backslash] rest := by
    intro hdoubled
    obtain ⟨tail, hnil, -⟩ := doubled_backslash_iff.mp hdoubled
    cases hnil
  cases rest with
  | nil =>
      have hnone : AcceptsNone ([backslash] ++ []) := fun name _ => fnmatch_backslash name
      simp only [hnone, hnone.startWith, true_or]
  | cons w rest =>
      have hne : backslash ≠ w := by
        rintro rfl
        exact absurd (hrest backslash rfl) (by decide)
      have hfirst := fun name => fnmatch_backslash_cons (c := w) rest name
      rw [replicate_append_backslash, List.cons_append, List.nil_append,
        acceptedStartWith_iff_of_ne hfirst hne]
      simp [hnot]

/-- A backslash escapes a byte of the literal part. -/
theorem acceptedStartWith_escape_iff {d : CChar}
    (ih : AcceptedStartWith (List.replicate (k + 1) backslash ++ literal) (literal ++ rest) ↔
      AcceptsNone (literal ++ rest) ∨ Doubled (k + 1) literal rest) :
    AcceptedStartWith (List.replicate k backslash ++ backslash :: d :: literal)
        (backslash :: d :: literal ++ rest) ↔
      AcceptsNone (backslash :: d :: literal ++ rest) ∨
        Doubled k (backslash :: d :: literal) rest := by
  have hfirst := fun name => fnmatch_backslash_cons (c := d) (literal ++ rest) name
  rw [replicate_append_backslash, doubled_backslash_iff, List.cons_append, List.cons_append]
  by_cases hd : d = backslash
  · subst hd
    have hslash : backslash ≠ slash := by decide
    rw [acceptedStartWith_cons_iff hfirst hslash, acceptsNone_iff_of_first hfirst hslash,
      replicate_append_backslash, ← List.cons_append, ← List.replicate_succ, ih]
    simp
  · rw [acceptedStartWith_iff_of_ne hfirst (Ne.symm hd)]
    simp [hd]

/-- **What shows up in every accepted name.** The literal part does, behind `k` backslashes
owed, exactly when nothing is accepted or its backslashes are doubled and made up for. -/
theorem acceptedStartWith_literal_iff (hliteral : ∀ c ∈ literal, isWildcardByte c = false)
    (hslash : slash ∉ literal) (hrest : ∀ w ∈ rest.head?, isWildcardByte w = true) :
    AcceptedStartWith (List.replicate k backslash ++ literal) (literal ++ rest) ↔
      AcceptsNone (literal ++ rest) ∨ Doubled k literal rest := by
  induction literal using List.twoStepInduction generalizing k with
  | nil =>
      rw [doubled_nil_iff, List.append_nil, List.nil_append]
      exact ⟨.inr, fun h => h.elim (fun hnone => hnone.startWith _) id⟩
  | singleton c =>
      by_cases hc : c = backslash
      · subst hc
        exact acceptedStartWith_backslash_iff hrest
      · refine acceptedStartWith_ordinary_iff (hliteral c (by simp)) ?_ hc ?_
        · rintro rfl
          exact hslash (by simp)
        · rw [doubled_nil_iff, List.nil_append]
          exact ⟨.inr, fun h => h.elim (fun hnone => hnone.startWith _) id⟩
  | cons_cons c d literal ihTail ihCons =>
      simp only [List.mem_cons, not_or] at hslash
      by_cases hc : c = backslash
      · subst hc
        exact acceptedStartWith_escape_iff
          (ihTail (fun e he => hliteral e (by simp [he])) hslash.2.2)
      · refine acceptedStartWith_ordinary_iff (hliteral c (by simp)) (Ne.symm hslash.1) hc ?_
        have htail := ihCons d (k := 0) (fun e he => hliteral e (List.mem_cons_of_mem _ he))
          (by simp [hslash.2])
        simpa using htail

/-- The hint never hides a match: every accepted file name starts with it, and an enumeration
that leaves out the items whose names do not reports every match. -/
def HintSafe (env : ArgsEnv) (pattern : CString) : Prop :=
  AcceptedStartWith (hint env pattern) (patternParts pattern).2 ∧
    ∀ items : List CString,
      (items.filter fun item => (hint env pattern).isPrefixOf (itemName item)).filterMap
          (wildcardCallback (patternParts pattern).1 (patternParts pattern).2) =
        items.filterMap (wildcardCallback (patternParts pattern).1 (patternParts pattern).2)

theorem slash_not_mem_itemName (item : CString) : slash ∉ itemName item := by
  unfold itemName
  cases hcut : strrchr item slash with
  | none => exact (strrchr_eq_none_iff item slash).mp hcut
  | some cut =>
      obtain ⟨before, lastSlash⟩ := cut
      obtain ⟨-, tail, rfl, hnot⟩ := strrchr_eq_some hcut
      exact hnot

theorem wildcardCallback_of_not_accepts {patternDir filePattern item : CString}
    (hname : fnmatch filePattern (itemName item) = false) :
    wildcardCallback patternDir filePattern item = none := by
  unfold itemName at hname
  unfold wildcardCallback
  cases hcut : strrchr item slash <;> simp_all

/-- An enumeration that follows a hint all accepted names start with reports every match. -/
theorem filterMap_filter_hint {lead patternDir filePattern : CString}
    (hstart : AcceptedStartWith lead filePattern) (items : List CString) :
    (items.filter fun item => lead.isPrefixOf (itemName item)).filterMap
        (wildcardCallback patternDir filePattern) =
      items.filterMap (wildcardCallback patternDir filePattern) := by
  rw [List.filterMap_filter]
  apply List.filterMap_congr
  intro item _
  split
  · rfl
  · rename_i hprefix
    symm
    apply wildcardCallback_of_not_accepts
    by_contra haccepts
    rw [Bool.not_eq_false] at haccepts
    exact hprefix (List.isPrefixOf_iff_prefix.mpr
      (hstart _ (slash_not_mem_itemName item) haccepts))

/-- **When the early filter hides no match.** Either the pattern accepts no file name, or the
part in front of its first wildcard has no backslash but doubled ones at its end, and every
name that the rest of the pattern accepts starts with as many backslashes as were doubled. -/
theorem hintSafe_iff (env : ArgsEnv) (pattern : CString) :
    HintSafe env pattern ↔
      AcceptsNone (patternParts pattern).2 ∨
        ∃ plain j,
          literalPart (patternParts pattern).2 = plain ++ List.replicate (2 * j) backslash ∧
            backslash ∉ plain ∧
            AcceptedStartWith (List.replicate j backslash) (wildPart (patternParts pattern).2) := by
  have hliteral : ∀ c ∈ literalPart (patternParts pattern).2, isWildcardByte c = false := by
    intro c hc
    simpa using List.mem_takeWhile_imp hc
  have hslash : slash ∉ literalPart (patternParts pattern).2 := fun hmem =>
    slash_not_mem_patternParts_snd pattern ((List.takeWhile_prefix _).subset hmem)
  have hrest : ∀ w ∈ (wildPart (patternParts pattern).2).head?, isWildcardByte w = true := by
    intro w hw
    have hdrop := List.head?_dropWhile_not (fun c => !isWildcardByte c) (patternParts pattern).2
    rw [wildPart, Option.mem_def] at hw
    rw [hw] at hdrop
    simpa using hdrop
  have hiff := acceptedStartWith_literal_iff (k := 0) hliteral hslash hrest
  rw [literalPart_append_wildPart] at hiff
  constructor
  · rintro ⟨hstart, -⟩
    rw [hint_eq] at hstart
    rcases hiff.mp hstart with hnone | ⟨plain, j, hplain, hfree, -, hrest⟩
    · exact .inl hnone
    · exact .inr ⟨plain, j, hplain, hfree, by rwa [Nat.zero_add] at hrest⟩
  · intro hsafe
    have hstart : AcceptedStartWith (hint env pattern) (patternParts pattern).2 := by
      rw [hint_eq]
      apply hiff.mpr
      rcases hsafe with hnone | ⟨plain, j, hplain, hfree, hrest⟩
      · exact .inl hnone
      · exact .inr ⟨plain, j, hplain, hfree, .inl rfl, by rwa [Nat.zero_add]⟩
    exact ⟨hstart, filterMap_filter_hint hstart⟩

/-- The hint of `a\*b*` is `a\`, with which the match `a*b` does not start. -/
theorem not_hintSafe_escaped_star :
    containsWildcard (cstr "a\\*b*") = true ∧
      fnmatch (patternParts (cstr "a\\*b*")).2 (cstr "a*b") = true ∧
      ¬ HintSafe ⟨none, none⟩ (cstr "a\\*b*") := by
  have haccepts : fnmatch (patternParts (cstr "a\\*b*")).2 (cstr "a*b") = true := by
    decide +kernel
  refine ⟨by decide +kernel, haccepts, ?_⟩
  rintro ⟨hstart, -⟩
  have hprefix := hstart (cstr "a*b") (by decide +kernel) haccepts
  exact absurd hprefix (by decide +kernel)

end BasC
