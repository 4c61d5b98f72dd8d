/-
# Words under quoting and escaping

A text over an arbitrary alphabet is split into words by one automaton. Blanks
separate words, a quote opens a segment that only the same quote closes, and an
escape makes the next letter ordinary in every state. The automaton tags each
letter it keeps with whether that letter was protected, so a later pass can still
tell quoted letters from bare ones.

The composition laws are stated on automaton states: the quote and escape state
evolves on its own, and a text cut at an exposed blank splits into the words of its
two halves.
-/

import Mathlib.Data.List.Basic

namespace BasC.Lib

universe u

variable {α : Type u}

/-- The letters with a role in a quoting language. The three classes are disjoint. -/
structure Lexicon (α : Type u) where
  /-- Letters that separate words. -/
  blank : α → Bool
  /-- Letters that open a quoted segment, and close the segment they opened. -/
  quote : α → Bool
  /-- Letters that make the next letter ordinary. -/
  escape : α → Bool
  blank_not_quote : ∀ c, blank c = true → quote c = false
  blank_not_escape : ∀ c, blank c = true → escape c = false
  quote_not_escape : ∀ c, quote c = true → escape c = false

/-- The quote and escape state of a reader. -/
structure Scan (α : Type u) where
  quoteChar : Option α
  escaped : Bool
  deriving DecidableEq

namespace Scan

/-- Outside quotes, with no pending escape. -/
def start : Scan α := ⟨none, false⟩

/-- A letter read in this state is inside quotes or follows an escape. -/
def protects (s : Scan α) : Bool := s.escaped || s.quoteChar.isSome

@[simp]
theorem start_quoteChar : (start : Scan α).quoteChar = none := rfl

@[simp]
theorem start_escaped : (start : Scan α).escaped = false := rfl

@[simp]
theorem start_protects : (start : Scan α).protects = false := rfl

/-- Only the start state leaves its next letter exposed. -/
theorem protects_eq_false_iff (s : Scan α) : s.protects = false ↔ s = start := by
  obtain ⟨quoteChar, escaped⟩ := s
  cases quoteChar <;> cases escaped <;> simp [protects, start]

end Scan

namespace Lexicon

variable (L : Lexicon α)

/-- An ordinary letter: no blank, no quote, no escape. -/
def plain (c : α) : Bool := !L.blank c && !L.quote c && !L.escape c

theorem plain_eq_true_iff (c : α) :
    L.plain c = true ↔ L.blank c = false ∧ L.quote c = false ∧ L.escape c = false := by
  simp [plain, and_assoc]

/-- The letter ends the word being read. -/
def breaks (s : Scan α) (c : α) : Bool := !s.protects && L.blank c

variable [DecidableEq α]

/-- One letter's effect on the quote and escape state. -/
def step (s : Scan α) (c : α) : Scan α :=
  if s.escaped then { s with escaped := false }
  else if L.escape c then { s with escaped := true }
  else
    match s.quoteChar with
    | some q => if c = q then { s with quoteChar := none } else s
    | none => if L.quote c then { s with quoteChar := some c } else s

/-- The state after a whole text. -/
def scan (s : Scan α) (text : List α) : Scan α := text.foldl L.step s

/-- The letter becomes part of the word being read. -/
def keeps (s : Scan α) (c : α) : Bool :=
  s.escaped || (!L.escape c &&
    match s.quoteChar with
    | some q => decide (c ≠ q)
    | none => !L.quote c && !L.blank c)

@[simp]
theorem scan_nil (s : Scan α) : L.scan s [] = s := rfl

@[simp]
theorem scan_cons (s : Scan α) (c : α) (text : List α) :
    L.scan s (c :: text) = L.scan (L.step s c) text := rfl

@[simp]
theorem step_escaped (q : Option α) (c : α) : L.step ⟨q, true⟩ c = ⟨q, false⟩ := rfl

/-- A letter that is neither quote nor escape leaves the start state alone. -/
theorem step_start_of_ordinary {c : α} (hquote : L.quote c = false)
    (hescape : L.escape c = false) : L.step .start c = .start := by
  simp [step, hquote, hescape]

theorem step_start_of_plain {c : α} (hplain : L.plain c = true) :
    L.step .start c = .start := by
  obtain ⟨-, hquote, hescape⟩ := (L.plain_eq_true_iff c).mp hplain
  exact L.step_start_of_ordinary hquote hescape

theorem step_start_of_blank {c : α} (hblank : L.blank c = true) :
    L.step .start c = .start :=
  L.step_start_of_ordinary (L.blank_not_quote c hblank) (L.blank_not_escape c hblank)

/-- Breaking a word does not move the quote and escape state. -/
theorem step_of_breaks {s : Scan α} {c : α} (hbreaks : L.breaks s c = true) :
    L.step s c = s := by
  simp only [breaks, Bool.and_eq_true, Bool.not_eq_true'] at hbreaks
  obtain ⟨hexposed, hblank⟩ := hbreaks
  obtain rfl := (Scan.protects_eq_false_iff s).mp hexposed
  exact L.step_start_of_blank hblank

/-- Letters that are neither quotes nor escapes do not move the start state. -/
theorem scan_start_of_ordinary {text : List α}
    (hordinary : ∀ c ∈ text, L.quote c = false ∧ L.escape c = false) :
    L.scan .start text = .start := by
  induction text with
  | nil => rfl
  | cons c text ih =>
      have hc := hordinary c (by simp)
      rw [scan_cons, L.step_start_of_ordinary hc.1 hc.2]
      exact ih fun d hd => hordinary d (by simp [hd])

theorem scan_start_of_plain {text : List α} (hplain : ∀ c ∈ text, L.plain c = true) :
    L.scan .start text = .start :=
  L.scan_start_of_ordinary fun c hc => ((L.plain_eq_true_iff c).mp (hplain c hc)).2

/-- Every letter of a text together with whether it is inside quotes or follows an
escape, reading from the given state. -/
def marks : Scan α → List α → List (α × Bool)
  | _, [] => []
  | s, c :: text => (c, s.protects) :: marks (L.step s c) text

@[simp]
theorem marks_nil (s : Scan α) : L.marks s [] = [] := rfl

@[simp]
theorem marks_cons (s : Scan α) (c : α) (text : List α) :
    L.marks s (c :: text) = (c, s.protects) :: L.marks (L.step s c) text := rfl

@[simp]
theorem map_fst_marks (s : Scan α) (text : List α) :
    (L.marks s text).map Prod.fst = text := by
  induction text generalizing s with
  | nil => rfl
  | cons c text ih => simp [ih]

end Lexicon

/-- A word whose letters carry whether they were protected where they were written. -/
abbrev MarkedWord (α : Type u) := List (α × Bool)

/-- The state of a reader that collects words. -/
structure Splitter (α : Type u) where
  /-- The words already complete. -/
  words : List (MarkedWord α)
  /-- The word being read; `none` between words. -/
  current : Option (MarkedWord α)
  scan : Scan α

namespace Splitter

/-- Before the first letter. -/
def init : Splitter α := ⟨[], none, .start⟩

/-- All words, the one being read included. -/
def allWords (st : Splitter α) : List (MarkedWord α) := st.words ++ st.current.toList

/-- What the end of the text makes of the state: an open quote is an error. -/
def finish (st : Splitter α) : Option (List (MarkedWord α)) :=
  if st.scan.quoteChar.isSome then none else some st.allWords

theorem finish_of_quoteChar_eq_none {st : Splitter α} (hclosed : st.scan.quoteChar = none) :
    st.finish = some st.allWords := by
  simp [finish, hclosed]

/-- Put complete words in front of the state. -/
def prepend (done : List (MarkedWord α)) (st : Splitter α) : Splitter α :=
  { st with words := done ++ st.words }

@[simp]
theorem prepend_scan (done : List (MarkedWord α)) (st : Splitter α) :
    (st.prepend done).scan = st.scan := rfl

@[simp]
theorem prepend_allWords (done : List (MarkedWord α)) (st : Splitter α) :
    (st.prepend done).allWords = done ++ st.allWords := by
  simp [prepend, allWords]

theorem prepend_finish (done : List (MarkedWord α)) (st : Splitter α) :
    (st.prepend done).finish = st.finish.map (done ++ ·) := by
  unfold finish
  split <;> simp_all

end Splitter

namespace Lexicon

variable (L : Lexicon α) [DecidableEq α]

/-- One letter's effect on the collecting reader. -/
def feed (st : Splitter α) (c : α) : Splitter α :=
  if L.breaks st.scan c then ⟨st.allWords, none, st.scan⟩
  else
    ⟨st.words,
      some (st.current.getD [] ++ if L.keeps st.scan c then [(c, st.scan.protects)] else []),
      L.step st.scan c⟩

/-- The collecting reader run over a whole text. -/
def read (st : Splitter α) (text : List α) : Splitter α := text.foldl L.feed st

/-- The words of a text with their protection marks; `none` when a quote stays open. -/
def splitMarked (text : List α) : Option (List (MarkedWord α)) :=
  (L.read .init text).finish

/-- Forget the protection marks of a list of words. -/
def unmark (words : List (MarkedWord α)) : List (List α) :=
  words.map (List.map Prod.fst)

/-- The words of a text; `none` when a quote stays open. -/
def split (text : List α) : Option (List (List α)) :=
  (L.splitMarked text).map unmark

omit [DecidableEq α] in
/-- At the end of a text without an open quote, all words are returned. -/
theorem unmark_allWords_of_finish {st : Splitter α} {words : List (List α)}
    (hfinish : st.finish.map unmark = some words) : unmark st.allWords = words := by
  unfold Splitter.finish at hfinish
  split at hfinish
  · simp at hfinish
  · simpa using hfinish

theorem unmark_allWords_of_split {text : List α} {words : List (List α)}
    (hsplit : L.split text = some words) : unmark (L.read .init text).allWords = words :=
  unmark_allWords_of_finish hsplit

@[simp]
theorem read_nil (st : Splitter α) : L.read st [] = st := rfl

@[simp]
theorem read_cons (st : Splitter α) (c : α) (text : List α) :
    L.read st (c :: text) = L.read (L.feed st c) text := rfl

theorem read_append (st : Splitter α) (first second : List α) :
    L.read st (first ++ second) = L.read (L.read st first) second := by
  simp [read]

omit [DecidableEq α] in
@[simp]
theorem unmark_append (first second : List (MarkedWord α)) :
    unmark (first ++ second) = unmark first ++ unmark second := by
  simp [unmark]

/-- Collecting words does not disturb the quote and escape state. -/
@[simp]
theorem feed_scan (st : Splitter α) (c : α) :
    (L.feed st c).scan = L.step st.scan c := by
  unfold feed
  split
  · rename_i hbreaks
    exact (L.step_of_breaks hbreaks).symm
  · rfl

@[simp]
theorem read_scan (st : Splitter α) (text : List α) :
    (L.read st text).scan = L.scan st.scan text := by
  induction text generalizing st with
  | nil => rfl
  | cons c text ih => simp [ih]

/-! ## One letter -/

omit [DecidableEq α] in
theorem blank_of_quote {c : α} (hquote : L.quote c = true) : L.blank c = false := by
  by_contra hblank
  have hnot := L.blank_not_quote c (by simpa using hblank)
  rw [hquote] at hnot
  cases hnot

omit [DecidableEq α] in
theorem blank_of_escape {c : α} (hescape : L.escape c = true) : L.blank c = false := by
  by_contra hblank
  have hnot := L.blank_not_escape c (by simpa using hblank)
  rw [hescape] at hnot
  cases hnot

section OneLetter

variable (words : List (MarkedWord α)) (current : Option (MarkedWord α))

/-- A letter behind an escape is kept. -/
theorem feed_escaped (quoteChar : Option α) (c : α) :
    L.feed ⟨words, current, ⟨quoteChar, true⟩⟩ c =
      ⟨words, some (current.getD [] ++ [(c, true)]), ⟨quoteChar, false⟩⟩ := by
  simp [feed, breaks, keeps, Scan.protects]

/-- An escape is dropped. -/
theorem feed_escape (quoteChar : Option α) {c : α} (hescape : L.escape c = true) :
    L.feed ⟨words, current, ⟨quoteChar, false⟩⟩ c =
      ⟨words, some (current.getD []), ⟨quoteChar, true⟩⟩ := by
  simp [feed, breaks, keeps, step, hescape, L.blank_of_escape hescape]

/-- A quote that opens a quotation is dropped. -/
theorem feed_open {c : α} (hquote : L.quote c = true) :
    L.feed ⟨words, current, ⟨none, false⟩⟩ c =
      ⟨words, some (current.getD []), ⟨some c, false⟩⟩ := by
  simp [feed, breaks, keeps, step, hquote, L.quote_not_escape c hquote, L.blank_of_quote hquote]

/-- The quote that closes a quotation is dropped. -/
theorem feed_close {q : α} (hescape : L.escape q = false) :
    L.feed ⟨words, current, ⟨some q, false⟩⟩ q =
      ⟨words, some (current.getD []), ⟨none, false⟩⟩ := by
  simp [feed, breaks, keeps, step, Scan.protects, hescape]

/-- Any other letter of a quotation is kept. -/
theorem feed_inside {q c : α} (hescape : L.escape c = false) (hne : c ≠ q) :
    L.feed ⟨words, current, ⟨some q, false⟩⟩ c =
      ⟨words, some (current.getD [] ++ [(c, true)]), ⟨some q, false⟩⟩ := by
  simp [feed, breaks, keeps, step, Scan.protects, hescape, hne]

/-- A plain letter is kept. -/
theorem feed_of_plain {c : α} (hplain : L.plain c = true) :
    L.feed ⟨words, current, .start⟩ c =
      ⟨words, some (current.getD [] ++ [(c, false)]), .start⟩ := by
  have hstep := L.step_start_of_plain hplain
  obtain ⟨hblank, hquote, hescape⟩ := (L.plain_eq_true_iff c).mp hplain
  simp [feed, breaks, keeps, hblank, hquote, hescape, hstep]

end OneLetter

/-- Words already complete are never looked at again. -/
theorem feed_prepend (done : List (MarkedWord α)) (st : Splitter α) (c : α) :
    L.feed (st.prepend done) c = (L.feed st c).prepend done := by
  simp only [feed, Splitter.prepend_scan, Splitter.prepend_allWords]
  split <;> rfl

theorem read_prepend (done : List (MarkedWord α)) (st : Splitter α) (text : List α) :
    L.read (st.prepend done) text = (L.read st text).prepend done := by
  induction text generalizing st with
  | nil => rfl
  | cons c text ih => rw [read_cons, feed_prepend, ih, read_cons]

/-- An exposed blank hands the rest of the text to a fresh reader. -/
theorem read_blank_cons {st : Splitter α} {b : α} (hstart : st.scan = .start)
    (hblank : L.blank b = true) (text : List α) :
    L.read st (b :: text) = (L.read .init text).prepend st.allWords := by
  have hfeed : L.feed st b = Splitter.init.prepend st.allWords := by
    simp [feed, breaks, hstart, hblank, Splitter.prepend, Splitter.init]
  rw [read_cons, hfeed, read_prepend]

/-- Blanks between words change nothing. -/
theorem read_init_of_blanks {text : List α} (hblank : ∀ c ∈ text, L.blank c = true) :
    L.read .init text = .init := by
  induction text with
  | nil => rfl
  | cons b text ih =>
      rw [L.read_blank_cons rfl (hblank b (by simp)), ih fun c hc => hblank c (by simp [hc])]
      rfl

/-- Blanks in front of a text change nothing. -/
theorem splitMarked_blanks_append {lead : List α} (hblank : ∀ c ∈ lead, L.blank c = true)
    (text : List α) : L.splitMarked (lead ++ text) = L.splitMarked text := by
  rw [splitMarked, read_append, L.read_init_of_blanks hblank, splitMarked]

/-- **Cutting at an exposed blank.** When the first half ends outside quotes with no
pending escape, the words of the whole are the words of the halves. -/
theorem splitMarked_append_blank {first : List α} {b : α}
    (hstart : L.scan .start first = .start) (hblank : L.blank b = true) (second : List α) :
    L.splitMarked (first ++ b :: second) =
      (L.splitMarked second).map ((L.read .init first).allWords ++ ·) := by
  have hscan : (L.read .init first).scan = .start := by simpa [Splitter.init] using hstart
  rw [splitMarked, read_append, L.read_blank_cons hscan hblank, Splitter.prepend_finish]
  rfl

/-- Blanks behind a text that ends exposed change nothing. -/
theorem splitMarked_append_blanks {first tail : List α}
    (hstart : L.scan .start first = .start) (hblank : ∀ c ∈ tail, L.blank c = true) :
    L.splitMarked (first ++ tail) = L.splitMarked first := by
  cases tail with
  | nil => rw [List.append_nil]
  | cons b tail =>
      have htail : L.splitMarked tail = some [] := by
        rw [splitMarked, L.read_init_of_blanks fun c hc => hblank c (by simp [hc])]
        rfl
      have hclosed : (L.read .init first).scan.quoteChar = none := by
        simp [Splitter.init, hstart]
      rw [L.splitMarked_append_blank hstart (hblank b (by simp)), htail, splitMarked,
        Splitter.finish_of_quoteChar_eq_none hclosed]
      simp

/-- The unmarked form of cutting at an exposed blank. -/
theorem split_append_blank {first : List α} {b : α} {words : List (List α)}
    (hstart : L.scan .start first = .start) (hwords : L.split first = some words)
    (hblank : L.blank b = true) (second : List α) :
    L.split (first ++ b :: second) = (L.split second).map (words ++ ·) := by
  have hfirst := L.unmark_allWords_of_split hwords
  rw [split, L.splitMarked_append_blank hstart hblank, split, Option.map_map, Option.map_map]
  congr 1
  funext marked
  simp [hfirst]

/-- A text splits exactly when it ends outside quotes. -/
theorem split_eq_none_iff (text : List α) :
    L.split text = none ↔ (L.scan .start text).quoteChar.isSome = true := by
  simp only [split, splitMarked, Splitter.finish, read_scan, Option.map_eq_none_iff]
  split <;> simp_all [Splitter.init]

/-- The word being read only grows, and complete words stay as they are. -/
theorem read_grows (words : List (MarkedWord α)) (current : MarkedWord α) (scan : Scan α)
    (text : List α) :
    ∃ ext more, (L.read ⟨words, some current, scan⟩ text).allWords =
      words ++ (current ++ ext) :: more := by
  induction text generalizing current scan with
  | nil => exact ⟨[], [], by simp [Splitter.allWords]⟩
  | cons c text ih =>
      rw [read_cons]
      by_cases hbreaks : L.breaks scan c = true
      · have hfeed : L.feed ⟨words, some current, scan⟩ c =
            Splitter.prepend (words ++ [current]) ⟨[], none, scan⟩ := by
          simp [feed, hbreaks, Splitter.allWords, Splitter.prepend]
        refine ⟨[], (L.read ⟨[], none, scan⟩ text).allWords, ?_⟩
        rw [hfeed, read_prepend, Splitter.prepend_allWords]
        simp
      · obtain ⟨ext, more, hread⟩ := ih
          (current ++ if L.keeps scan c then [(c, scan.protects)] else []) (L.step scan c)
        refine ⟨(if L.keeps scan c then [(c, scan.protects)] else []) ++ ext, more, ?_⟩
        have hfeed : L.feed ⟨words, some current, scan⟩ c = ⟨words,
            some (current ++ if L.keeps scan c then [(c, scan.protects)] else []),
            L.step scan c⟩ := by
          simp [feed, hbreaks]
        rw [hfeed, hread, List.append_assoc]

/-- An open quote or escape belongs to a word. -/
theorem current_isSome_of_scan_ne_start (text : List α) (hopen : L.scan .start text ≠ .start) :
    (L.read .init text).current.isSome = true := by
  have hread : ∀ st : Splitter α, (st.scan ≠ .start → st.current.isSome = true) →
      (L.read st text).scan ≠ .start → (L.read st text).current.isSome = true := by
    clear hopen
    induction text with
    | nil => exact fun _ hst => hst
    | cons c text ih =>
        intro st _
        apply ih
        intro hscan
        unfold feed at hscan ⊢
        split
        · rename_i hbreaks
          rw [if_pos hbreaks] at hscan
          simp only [breaks, Bool.and_eq_true, Bool.not_eq_true'] at hbreaks
          exact absurd ((Scan.protects_eq_false_iff st.scan).mp hbreaks.1) hscan
        · rfl
  apply hread
  · simp [Splitter.init]
  · rwa [read_scan]

/-- **An open escape glues.** Behind a text that ends in an open escape, the next letter
continues the last word. -/
theorem split_append_of_open {first second : List α} {c : α} {words rest : List (List α)}
    (hwords : L.split first = some words) (hopen : L.scan .start first ≠ .start)
    (hrest : L.split (first ++ c :: second) = some rest) :
    ∃ front word ext more, words = front ++ [word] ∧
      rest = front ++ (word ++ c :: ext) :: more := by
  have hcurrent := L.current_isSome_of_scan_ne_start first hopen
  have hscan : (L.read .init first).scan = L.scan .start first := L.read_scan .init first
  have hquote : (L.scan .start first).quoteChar = none := by
    by_contra hsome
    have hnone := (L.split_eq_none_iff first).mpr (Option.isSome_iff_ne_none.mpr hsome)
    simp [hnone] at hwords
  have hescaped : L.scan .start first = ⟨none, true⟩ := by
    generalize L.scan .start first = scan at hquote hopen
    obtain ⟨quoteChar, escaped⟩ := scan
    obtain rfl : quoteChar = none := hquote
    cases escaped with
    | true => rfl
    | false => exact absurd rfl hopen
  rw [hescaped] at hscan
  simp only [split, splitMarked, read_append, read_cons] at hwords hrest
  generalize L.read .init first = st at hcurrent hscan hwords hrest
  obtain ⟨front, current, scan⟩ := st
  simp only at hscan hcurrent
  obtain ⟨word, rfl⟩ := Option.isSome_iff_exists.mp hcurrent
  subst hscan
  have hfeed : L.feed ⟨front, some word, ⟨none, true⟩⟩ c =
      ⟨front, some (word ++ [(c, true)]), ⟨none, false⟩⟩ := L.feed_escaped front (some word) none c
  obtain ⟨ext, more, hgrows⟩ := L.read_grows front (word ++ [(c, true)]) ⟨none, false⟩ second
  refine ⟨unmark front, word.map Prod.fst, ext.map Prod.fst, unmark more, ?_, ?_⟩
  · simpa [Splitter.finish, Splitter.allWords, unmark, eq_comm] using hwords
  · rw [hfeed] at hrest
    rw [← unmark_allWords_of_finish hrest, hgrows]
    simp [unmark]

/-- One more letter with the property, kept or not. -/
theorem feed_letters {P : α → Prop} {st : Splitter α} {c : α} (hc : P c)
    (hst : ∀ word ∈ st.allWords, ∀ letter ∈ word, P letter.1) :
    ∀ word ∈ (L.feed st c).allWords, ∀ letter ∈ word, P letter.1 := by
  intro word hword letter hletter
  unfold feed at hword
  split at hword
  · exact hst word (by simpa [Splitter.allWords] using hword) letter hletter
  · simp only [Splitter.allWords, Option.toList_some, List.mem_append,
      List.mem_singleton] at hword hst
    rcases hword with hword | rfl
    · exact hst word (.inl hword) letter hletter
    · rcases List.mem_append.mp hletter with hletter | hletter
      · cases hcurrent : st.current with
        | none => simp [hcurrent] at hletter
        | some current =>
            rw [hcurrent, Option.getD_some] at hletter
            exact hst current (.inr (by simp [hcurrent])) letter hletter
      · split at hletter
        · rwa [List.mem_singleton.mp hletter]
        · simp at hletter

/-- The words read hold no letters but those of the text. -/
theorem read_letters {P : α → Prop} {text : List α} (htext : ∀ c ∈ text, P c) {st : Splitter α}
    (hst : ∀ word ∈ st.allWords, ∀ letter ∈ word, P letter.1) :
    ∀ word ∈ (L.read st text).allWords, ∀ letter ∈ word, P letter.1 := by
  induction text generalizing st with
  | nil => exact hst
  | cons c text ih =>
      rw [List.forall_mem_cons] at htext
      exact ih htext.2 (L.feed_letters htext.1 hst)

/-- Splitting makes up no letters. -/
theorem mem_of_split {text : List α} {words : List (List α)} (hsplit : L.split text = some words)
    {word : List α} (hword : word ∈ words) {c : α} (hc : c ∈ word) : c ∈ text := by
  have hall : ∀ marked ∈ (L.read .init text).allWords, ∀ letter ∈ marked, letter.1 ∈ text :=
    L.read_letters (fun d hd => hd) (by simp [Splitter.init, Splitter.allWords])
  rw [← L.unmark_allWords_of_split hsplit] at hword
  obtain ⟨marked, hmarked, rfl⟩ := List.mem_map.mp hword
  obtain ⟨letter, hletter, rfl⟩ := List.mem_map.mp hc
  exact hall marked hmarked letter hletter

end Lexicon

end BasC.Lib
