/-
# Writing words so that they can be split again

A word can be written in many ways: bare runs, escaped letters and quoted segments in
any order. This module says which texts write a list of words and proves that the
splitting automaton undoes every one of them.

It also measures what splitting loses. Every letter of a text is either kept, or ends a
word, or is lost; a text with a quote or an escape loses at least one letter. Counting
letters then shows that blank-joined words are split into themselves only when no word
needs quoting.
-/

import BasC.Lib.Pieces
import BasC.Lib.Quoting

namespace BasC.Lib

universe u

variable {α : Type u}

namespace Lexicon

variable (L : Lexicon α)

/-- The inside of a segment quoted by `q`: the closing quote and the escape letters are
written behind an escape, and any other letter may be. -/
inductive QuotedBody (q : α) : List α → List α → Prop
  | nil : QuotedBody q [] []
  | bare {c : α} {value text : List α} : c ≠ q → L.escape c = false →
      QuotedBody q value text → QuotedBody q (c :: value) (c :: text)
  | escaped {e c : α} {value text : List α} : L.escape e = true →
      QuotedBody q value text → QuotedBody q (c :: value) (e :: c :: text)

/-- One segment of a word and a text that writes it. -/
inductive Segment : List α → List α → Prop
  | bare {run : List α} : run ≠ [] → (∀ c ∈ run, L.plain c = true) → Segment run run
  | escaped {e c : α} : L.escape e = true → Segment [c] [e, c]
  | quoted {q : α} {value text : List α} : L.quote q = true →
      L.QuotedBody q value text → Segment value (q :: (text ++ [q]))

/-- A word and a text that writes it as a non-empty concatenation of segments. -/
inductive WordText : List α → List α → Prop
  | single {value text : List α} : L.Segment value text → WordText value text
  | append {value text word rest : List α} : L.Segment value text → WordText word rest →
      WordText (value ++ word) (text ++ rest)

/-- A text is over, or goes on with a blank. -/
def EndsWord (text : List α) : Prop :=
  text = [] ∨ ∃ b rest, text = b :: rest ∧ L.blank b = true

/-- A list of words and a line that writes it: blanks anywhere around the words, and at
least one between two of them. -/
inductive LineText : List (List α) → List α → Prop
  | blanks {trail : List α} : (∀ c ∈ trail, L.blank c = true) → LineText [] trail
  | word (lead : List α) {word text rest : List α} {words : List (List α)} :
      (∀ c ∈ lead, L.blank c = true) → L.WordText word text → L.EndsWord rest →
      LineText words rest → LineText (word :: words) (lead ++ (text ++ rest))

variable [DecidableEq α]

theorem read_of_plain (words : List (MarkedWord α)) (current : MarkedWord α) {run : List α}
    (hplain : ∀ c ∈ run, L.plain c = true) :
    L.read ⟨words, some current, .start⟩ run =
      ⟨words, some (current ++ run.map (·, false)), .start⟩ := by
  induction run generalizing current with
  | nil => simp
  | cons c run ih =>
      rw [read_cons, L.feed_of_plain words _ (hplain c (by simp)),
        ih _ fun d hd => hplain d (by simp [hd])]
      simp

theorem read_quotedBody {q : α} {value text : List α} (hbody : L.QuotedBody q value text)
    (words : List (MarkedWord α)) (current : MarkedWord α) :
    L.read ⟨words, some current, ⟨some q, false⟩⟩ text =
      ⟨words, some (current ++ value.map (·, true)), ⟨some q, false⟩⟩ := by
  induction hbody generalizing current with
  | nil => simp
  | @bare c value text hne hescape _ ih =>
      rw [read_cons, L.feed_inside words _ hescape hne, ih]
      simp
  | @escaped e c value text hescape _ ih =>
      rw [read_cons, read_cons, L.feed_escape words _ _ hescape, L.feed_escaped, ih]
      simp

/-- Reading one segment appends its value to the word being read and leaves the reader
outside quotes. -/
theorem read_segment {value text : List α} (hsegment : L.Segment value text)
    (words : List (MarkedWord α)) (current : Option (MarkedWord α)) :
    ∃ marked : MarkedWord α, marked.map Prod.fst = value ∧
      L.read ⟨words, current, .start⟩ text =
        ⟨words, some (current.getD [] ++ marked), .start⟩ := by
  cases hsegment with
  | bare hne hplain =>
      obtain ⟨c, run, rfl⟩ := List.exists_cons_of_ne_nil hne
      refine ⟨(c, false) :: run.map (·, false), by simp [Function.comp_def], ?_⟩
      rw [read_cons, L.feed_of_plain words current (hplain c (by simp)),
        L.read_of_plain words _ fun d hd => hplain d (by simp [hd])]
      simp
  | @escaped e c hescape =>
      refine ⟨[(c, true)], rfl, ?_⟩
      rw [Scan.start, read_cons, read_cons, L.feed_escape words current none hescape,
        L.feed_escaped, read_nil, Option.getD_some]
  | @quoted q _ text hquote hbody =>
      refine ⟨value.map (·, true), by simp [Function.comp_def], ?_⟩
      rw [Scan.start, read_cons, L.feed_open words current hquote, read_append,
        L.read_quotedBody hbody, read_cons,
        L.feed_close words _ (L.quote_not_escape q hquote), read_nil, Option.getD_some]

theorem read_wordText {word text : List α} (htext : L.WordText word text)
    (words : List (MarkedWord α)) (current : Option (MarkedWord α)) :
    ∃ marked : MarkedWord α, marked.map Prod.fst = word ∧
      L.read ⟨words, current, .start⟩ text =
        ⟨words, some (current.getD [] ++ marked), .start⟩ := by
  induction htext generalizing current with
  | single hsegment => exact L.read_segment hsegment words current
  | append hsegment _ ih =>
      obtain ⟨marked, hmarked, hread⟩ := L.read_segment hsegment words current
      obtain ⟨marked', hmarked', hread'⟩ := ih (some (current.getD [] ++ marked))
      refine ⟨marked ++ marked', by simp [hmarked, hmarked'], ?_⟩
      rw [read_append, hread, hread']
      simp

/-- A word's text ends outside quotes with no pending escape. -/
theorem scan_wordText {word text : List α} (htext : L.WordText word text) :
    L.scan .start text = .start := by
  obtain ⟨marked, -, hread⟩ := L.read_wordText htext [] none
  have hscan := congrArg Splitter.scan hread
  simpa using hscan

/-- **Splitting undoes rendering.** Whatever mixture of bare runs, escapes and quotes
writes the words, the automaton finds exactly these words. -/
theorem split_lineText {words : List (List α)} {text : List α}
    (htext : L.LineText words text) : L.split text = some words := by
  induction htext with
  | blanks hblank =>
      rw [split, splitMarked, L.read_init_of_blanks hblank]
      rfl
  | @word lead word text rest words hlead hword hends hrest ih =>
      obtain ⟨marked, hmarked, hread⟩ := L.read_wordText hword [] none
      have hfirst : L.split text = some [word] := by
        rw [split, splitMarked, Splitter.init, hread]
        simp [Splitter.finish, Splitter.allWords, unmark, hmarked]
      rw [split, L.splitMarked_blanks_append hlead, ← split]
      rcases hends with rfl | ⟨b, rest, rfl, hblank⟩
      · obtain rfl : words = [] := by
          simpa [split, splitMarked, Splitter.finish, Splitter.init, Splitter.allWords,
            unmark] using ih.symm
        rw [List.append_nil, hfirst]
      · have hrest' : L.split rest = some words := by
          rwa [split, ← List.singleton_append,
            L.splitMarked_blanks_append (by simpa using hblank), ← split] at ih
        rw [L.split_append_blank (L.scan_wordText hword) hfirst hblank, hrest']
        rfl

/-- A word that can be written as it is. -/
def PlainWord (word : List α) : Prop := word ≠ [] ∧ ∀ c ∈ word, L.plain c = true

omit [DecidableEq α] in
theorem PlainWord.wordText {L : Lexicon α} {word : List α} (hword : L.PlainWord word) :
    L.WordText word word :=
  .single (.bare hword.1 hword.2)

omit [DecidableEq α] in
/-- Plain words joined by single blanks are a rendering of these words. -/
theorem lineText_intercalate {b : α} (hblank : L.blank b = true) {words : List (List α)}
    (hplain : ∀ word ∈ words, L.PlainWord word) :
    L.LineText words (List.intercalate [b] words) := by
  induction words with
  | nil => exact .blanks (by simp [List.intercalate])
  | cons word words ih =>
      have hword := (hplain word (by simp)).wordText
      have hrest := ih fun w hw => hplain w (by simp [hw])
      cases words with
      | nil =>
          simpa [List.intercalate] using
            LineText.word [] (by simp) hword (.inl rfl) (.blanks (by simp))
      | cons next words =>
          have hblanked : L.LineText (next :: words)
              (b :: List.intercalate [b] (next :: words)) := by
            generalize List.intercalate [b] (next :: words) = text at hrest
            cases hrest with
            | @word lead _ text rest _ hlead hnext hends htail =>
                refine LineText.word (b :: lead) ?_ hnext hends htail
                intro c hc
                rcases List.mem_cons.mp hc with rfl | hc
                · exact hblank
                · exact hlead c hc
          simpa [List.intercalate, List.intersperse] using
            LineText.word [] (by simp) hword (.inr ⟨b, _, rfl, hblank⟩) hblanked

/-- Every word read from letters without quotes and escapes is a plain word. -/
theorem feed_plainWords {st : Splitter α} {c : α} (hquote : L.quote c = false)
    (hescape : L.escape c = false) (hstart : st.scan = .start)
    (hwords : ∀ word ∈ unmark st.allWords, L.PlainWord word) :
    (L.feed st c).scan = .start ∧ ∀ word ∈ unmark (L.feed st c).allWords, L.PlainWord word := by
  obtain ⟨words, current, scan⟩ := st
  subst hstart
  refine ⟨by rw [feed_scan, L.step_start_of_ordinary hquote hescape], ?_⟩
  cases hblank : L.blank c with
  | true =>
      have hfeed : (L.feed ⟨words, current, .start⟩ c).allWords = words ++ current.toList := by
        simp [feed, breaks, hblank, Splitter.allWords]
      rw [hfeed]
      exact hwords
  | false =>
      have hplain : L.plain c = true := (L.plain_eq_true_iff c).mpr ⟨hblank, hquote, hescape⟩
      rw [L.feed_of_plain words current hplain]
      simp only [Splitter.allWords, unmark_append, List.mem_append] at hwords ⊢
      rintro word (hword | hword)
      · exact hwords word (.inl hword)
      · cases current with
        | none =>
            obtain rfl : word = [c] := by simpa [unmark] using hword
            exact ⟨by simp, by simpa using hplain⟩
        | some current =>
            obtain rfl : word = current.map Prod.fst ++ [c] := by simpa [unmark] using hword
            have hcurrent := hwords (current.map Prod.fst) (.inr (by simp [unmark]))
            refine ⟨by simp, fun d hd => ?_⟩
            rcases List.mem_append.mp hd with hd | hd
            · exact hcurrent.2 d hd
            · obtain rfl : d = c := by simpa using hd
              exact hplain

theorem plainWords_of_split {text : List α} {words : List (List α)}
    (hquote : ∀ c ∈ text, L.quote c = false) (hescape : ∀ c ∈ text, L.escape c = false)
    (hsplit : L.split text = some words) : ∀ word ∈ words, L.PlainWord word := by
  have hread : ∀ (st : Splitter α), st.scan = .start →
      (∀ word ∈ unmark st.allWords, L.PlainWord word) →
      ∀ word ∈ unmark (L.read st text).allWords, L.PlainWord word := by
    clear hsplit
    induction text with
    | nil => exact fun st _ hwords => hwords
    | cons c text ih =>
        intro st hstart hwords
        obtain ⟨hscan, hnext⟩ := L.feed_plainWords (hquote c (by simp)) (hescape c (by simp))
          hstart hwords
        exact ih (fun d hd => hquote d (by simp [hd])) (fun d hd => hescape d (by simp [hd]))
          _ hscan hnext
  rw [← L.unmark_allWords_of_split hsplit]
  exact hread .init rfl (by simp [Splitter.init, Splitter.allWords, unmark])

/-! ## What splitting loses -/

omit [DecidableEq α] in
theorem span_unmark (words : List (MarkedWord α)) : span (unmark words) = span words :=
  span_map_map Prod.fst words

/-- The room taken by what has been read, with a separator owed between words. -/
def weight (st : Splitter α) : ℕ := span st.allWords + if st.current.isNone then 1 else 0

omit [DecidableEq α] in
@[simp]
theorem weight_init : weight (Splitter.init : Splitter α) = 1 := rfl

/-- One letter adds at most one to the weight. -/
theorem weight_feed_le (st : Splitter α) (c : α) : weight (L.feed st c) ≤ weight st + 1 := by
  obtain ⟨words, current, scan⟩ := st
  unfold feed
  split
  · cases current <;> simp [weight, Splitter.allWords]
  · cases current <;> simp only [weight, Splitter.allWords] <;> split <;> simp
    all_goals omega

/-- A letter that is neither kept nor ends a word adds nothing. -/
theorem weight_feed_of_lost {st : Splitter α} {c : α} (hbreaks : L.breaks st.scan c = false)
    (hkeeps : L.keeps st.scan c = false) : weight (L.feed st c) ≤ weight st := by
  obtain ⟨words, current, scan⟩ := st
  cases current <;> simp_all [feed, weight, Splitter.allWords]

theorem weight_read_le (st : Splitter α) (text : List α) :
    weight (L.read st text) ≤ weight st + text.length := by
  induction text generalizing st with
  | nil => simp
  | cons c text ih =>
      have hstep := L.weight_feed_le st c
      have hrest := ih (L.feed st c)
      rw [read_cons, List.length_cons]
      omega

/-- The first quote or escape of a text is lost. -/
theorem weight_read_init_of_special {text : List α}
    (hspecial : ∃ c ∈ text, L.quote c = true ∨ L.escape c = true) :
    weight (L.read .init text) ≤ text.length := by
  have hread : ∀ st : Splitter α, st.scan = .start →
      weight (L.read st text) + 1 ≤ weight st + text.length := by
    induction text with
    | nil => simp at hspecial
    | cons c text ih =>
        intro st hstart
        rw [read_cons, List.length_cons]
        have hrest := L.weight_read_le (L.feed st c) text
        by_cases hc : L.quote c = true ∨ L.escape c = true
        · have hblank : L.blank c = false := by
            by_contra hb
            have hq := L.blank_not_quote c (by simpa using hb)
            have he := L.blank_not_escape c (by simpa using hb)
            simp [hq, he] at hc
          have hkeeps : L.keeps st.scan c = false := by
            rw [hstart]
            rcases hc with hq | he
            · simp [keeps, hq]
            · simp [keeps, he]
          have hbreaks : L.breaks st.scan c = false := by simp [breaks, hblank]
          have hlost := L.weight_feed_of_lost hbreaks hkeeps
          omega
        · simp only [not_or, Bool.not_eq_true] at hc
          have hscan : (L.feed st c).scan = .start := by
            rw [feed_scan, hstart, L.step_start_of_ordinary hc.1 hc.2]
          have hstep := L.weight_feed_le st c
          have htail := ih (by
            obtain ⟨d, hd, hspecial⟩ := hspecial
            rcases List.mem_cons.mp hd with rfl | hd
            · simp [hc] at hspecial
            · exact ⟨d, hd, hspecial⟩) _ hscan
          omega
  have hinit := hread .init rfl
  rw [weight_init] at hinit
  omega

omit [DecidableEq α] in
theorem span_le_weight (st : Splitter α) : span (unmark st.allWords) ≤ weight st := by
  rw [span_unmark, weight]
  omega

/-- The words of a text, with their separators, take no more room than the text. -/
theorem span_le_of_split {text : List α} {words : List (List α)}
    (hsplit : L.split text = some words) : span words ≤ text.length + 1 := by
  have hspan := span_le_weight (L.read .init text)
  have hweight := L.weight_read_le .init text
  rw [L.unmark_allWords_of_split hsplit] at hspan
  rw [weight_init] at hweight
  omega

/-- With a quote or an escape in the text, they take strictly less. -/
theorem span_lt_of_split_of_special {text : List α} {words : List (List α)}
    (hsplit : L.split text = some words)
    (hspecial : ∃ c ∈ text, L.quote c = true ∨ L.escape c = true) :
    span words ≤ text.length := by
  rw [← L.unmark_allWords_of_split hsplit]
  exact (span_le_weight _).trans (L.weight_read_init_of_special hspecial)

/-- **Blank-joined words are read back exactly when none of them needs quoting.** -/
theorem split_intercalate_eq_iff {b : α} (hblank : L.blank b = true)
    (words : List (List α)) :
    L.split (List.intercalate [b] words) = some words ↔ ∀ word ∈ words, L.PlainWord word := by
  refine ⟨fun hsplit => ?_, fun hplain =>
    L.split_lineText (L.lineText_intercalate hblank hplain)⟩
  by_cases hne : words = []
  · simp [hne]
  have hspecial : ¬ ∃ c ∈ List.intercalate [b] words, L.quote c = true ∨ L.escape c = true := by
    intro hspecial
    have hroom := L.span_lt_of_split_of_special hsplit hspecial
    have hlength := length_intercalate b hne
    omega
  push Not at hspecial
  exact L.plainWords_of_split (fun c hc => by simpa using (hspecial c hc).1)
    (fun c hc => by simpa using (hspecial c hc).2) hsplit

/-- Without blanks one word is read, whatever is quoted in it. -/
theorem read_of_no_blank (words : List (MarkedWord α)) (current : MarkedWord α) (scan : Scan α)
    {text : List α} (hblank : ∀ c ∈ text, L.blank c = false) :
    ∃ ext, L.read ⟨words, some current, scan⟩ text =
      ⟨words, some (current ++ ext), L.scan scan text⟩ := by
  induction text generalizing current scan with
  | nil => exact ⟨[], by simp⟩
  | cons c text ih =>
      have hc := hblank c (by simp)
      obtain ⟨ext, hread⟩ := ih (current ++ if L.keeps scan c then [(c, scan.protects)] else [])
        (L.step scan c) fun d hd => hblank d (by simp [hd])
      have hfeed : L.feed ⟨words, some current, scan⟩ c = ⟨words,
          some (current ++ if L.keeps scan c then [(c, scan.protects)] else []),
          L.step scan c⟩ := by
        simp [feed, breaks, hc]
      exact ⟨_, by rw [read_cons, hfeed, hread, List.append_assoc, scan_cons]⟩

theorem read_init_of_no_blank {text : List α} (hne : text ≠ [])
    (hblank : ∀ c ∈ text, L.blank c = false) :
    ∃ current, L.read .init text = ⟨[], some current, L.scan .start text⟩ := by
  obtain ⟨c, letters, rfl⟩ := List.exists_cons_of_ne_nil hne
  have hc := hblank c (by simp)
  have hfeed : L.feed .init c = ⟨[],
      some (if L.keeps .start c then [(c, false)] else []), L.step .start c⟩ := by
    simp [feed, breaks, hc, Splitter.init]
    rfl
  obtain ⟨ext, hread⟩ := L.read_of_no_blank []
    (if L.keeps .start c then [(c, false)] else []) (L.step .start c)
    fun d hd => hblank d (List.mem_cons_of_mem c hd)
  exact ⟨_, by rw [read_cons, hfeed, hread, scan_cons]⟩

/-- Only quotes open a quotation. -/
theorem quote_of_scan {text : List α} {q : α}
    (hscan : (L.scan .start text).quoteChar = some q) : L.quote q = true := by
  have hstep : ∀ (s : Scan α) (c : α), (∀ r, s.quoteChar = some r → L.quote r = true) →
      ∀ r, (L.step s c).quoteChar = some r → L.quote r = true := by
    intro s c hs r hr
    unfold step at hr
    split at hr
    · exact hs r hr
    · split at hr
      · exact hs r hr
      · split at hr
        · split at hr
          · cases hr
          · exact hs r hr
        · split at hr
          · obtain rfl : c = r := by simpa using hr
            assumption
          · exact hs r hr
  have hall : ∀ (s : Scan α), (∀ r, s.quoteChar = some r → L.quote r = true) →
      ∀ r, (L.scan s text).quoteChar = some r → L.quote r = true := by
    clear hscan
    induction text with
    | nil => exact fun _ hs => hs
    | cons c text ih => exact fun s hs => ih (L.step s c) (hstep s c hs)
  exact hall .start (by simp) q hscan

/-- An open quote or escape keeps a blank. -/
theorem keeps_blank_of_ne_start {s : Scan α} {b : α} (hopen : s ≠ .start)
    (hquote : ∀ q, s.quoteChar = some q → L.quote q = true) (hblank : L.blank b = true) :
    L.keeps s b = true := by
  obtain ⟨quoteChar, escaped⟩ := s
  have hescape := L.blank_not_escape b hblank
  cases escaped with
  | true => simp [keeps]
  | false =>
      cases quoteChar with
      | none => exact absurd rfl hopen
      | some q =>
          have hne : b ≠ q := by
            rintro rfl
            have hboth := L.blank_not_quote b hblank
            rw [hquote b rfl] at hboth
            cases hboth
          simp [keeps, hescape, hne]

omit [DecidableEq α] in
/-- The first word at the end of a text is the first word collected. -/
theorem first_of_finish {st : Splitter α} {first : MarkedWord α} {more : List (MarkedWord α)}
    {word : List α} {words : List (List α)} (hall : st.allWords = first :: more)
    (hfinish : st.finish.map unmark = some (word :: words)) : first.map Prod.fst = word := by
  have hwords := unmark_allWords_of_finish hfinish
  rw [hall] at hwords
  exact (List.cons.inj hwords).1

/-- An open quote or escape takes the blank behind it into the word. -/
theorem feed_blank_of_ne_start {scan : Scan α} {b : α} (hopen : scan ≠ .start)
    (hquote : ∀ q, scan.quoteChar = some q → L.quote q = true) (hblank : L.blank b = true)
    (words : List (MarkedWord α)) (current : MarkedWord α) :
    L.feed ⟨words, some current, scan⟩ b =
      ⟨words, some (current ++ [(b, scan.protects)]), L.step scan b⟩ := by
  have hkeeps := L.keeps_blank_of_ne_start hopen hquote hblank
  have hbreaks : L.breaks scan b = false := by
    rw [breaks, Bool.and_eq_false_iff, Bool.not_eq_false']
    left
    by_contra hexposed
    exact hopen ((Scan.protects_eq_false_iff _).mp (by simpa using hexposed))
  simp [feed, hbreaks, hkeeps]

/-- Quotes and escapes are lost, so a word with one of them is read as a shorter one. -/
theorem length_lt_of_special {word : List α} {current : MarkedWord α} {scan : Scan α}
    (hspecial : ∃ c ∈ word, L.quote c = true ∨ L.escape c = true)
    (hread : L.read .init word = ⟨[], some current, scan⟩) : current.length < word.length := by
  have hweight := L.weight_read_init_of_special hspecial
  rw [hread] at hweight
  exact Nat.lt_of_succ_le (by simpa [weight, Splitter.allWords] using hweight)

/-- **The first blank-delimited word is the first word read only if it is plain.** -/
theorem plainWord_of_split_cons {word rest : List α} {words : List (List α)} (hne : word ≠ [])
    (hblank : ∀ c ∈ word, L.blank c = false) (hrest : ∀ b ∈ rest.head?, L.blank b = true)
    (hsplit : L.split (word ++ rest) = some (word :: words)) : L.PlainWord word := by
  refine ⟨hne, fun c hc => (L.plain_eq_true_iff c).mpr ⟨hblank c hc, ?_⟩⟩
  by_contra hnot
  have hspecial : ∃ c ∈ word, L.quote c = true ∨ L.escape c = true := by
    refine ⟨c, hc, ?_⟩
    by_contra hordinary
    simp only [not_or, Bool.not_eq_true] at hordinary
    exact hnot hordinary
  obtain ⟨current, hread⟩ := L.read_init_of_no_blank hne hblank
  have hshort : current.map Prod.fst ≠ word := by
    have hlost := L.length_lt_of_special hspecial hread
    rintro rfl
    simp at hlost
  rw [split, splitMarked, read_append, hread] at hsplit
  cases rest with
  | nil =>
      have hall : (⟨[], some current, L.scan .start word⟩ : Splitter α).allWords = [current] := rfl
      exact hshort (first_of_finish hall hsplit)
  | cons b rest =>
      have hb := hrest b (by simp)
      by_cases hstart : L.scan .start word = .start
      · rw [L.read_blank_cons hstart hb] at hsplit
        exact hshort (first_of_finish (Splitter.prepend_allWords _ _) hsplit)
      · -- The first word read has a letter that is not in `word`.
        rw [read_cons, L.feed_blank_of_ne_start hstart (fun q hq => L.quote_of_scan hq) hb]
          at hsplit
        obtain ⟨ext, more, hgrows⟩ := L.read_grows []
          (current ++ [(b, (L.scan .start word).protects)]) (L.step (L.scan .start word) b) rest
        have hword := first_of_finish hgrows hsplit
        have hmem : b ∈ word := by
          rw [← hword]
          simp
        rw [hblank b hmem] at hb
        cases hb

/-- A plain word in front of a blank is read as it stands. -/
theorem split_plainWord_append {word rest : List α} (hword : L.PlainWord word)
    (hrest : ∀ b ∈ rest.head?, L.blank b = true) :
    L.split (word ++ rest) = (L.split rest).map (word :: ·) := by
  have hsplit : L.split word = some [word] := by
    have hline :=
      L.split_lineText (.word [] (by simp) hword.wordText (.inl rfl) (.blanks (by simp)))
    simpa using hline
  cases rest with
  | nil => rw [List.append_nil, hsplit]; rfl
  | cons b rest =>
      have hb := hrest b (by simp)
      have hskip : L.split (b :: rest) = L.split rest := by
        rw [split, split, ← List.singleton_append, L.splitMarked_blanks_append (by simpa using hb)]
      rw [L.split_append_blank (L.scan_start_of_plain hword.2) hsplit hb, hskip]
      rfl

end Lexicon

end BasC.Lib
