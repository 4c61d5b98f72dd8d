/-
# Quoted words of a string

`qstr_btok` takes a string apart in place: it skips blanks, finds the end of a word or of a
quoted string, writes a NUL there and leaves a pointer behind it for the next call. On the text
at the pointer this is one step of a tokenizer. Called until it returns `NULL`, it gives the
items of a list that are separated by blanks, and it loses a byte wherever something else than a
blank follows a closing quote.
-/

import BasC.Base.Memory

namespace BasC

open CChar

/-- `if (*end) *end++ = '\0';`: where `end` points then, and the memory. -/
def Memory.cut (memory : Memory) (stop : CPointer) : CPointer × Memory :=
  match memory.read stop with
  | [] => (stop, memory)
  | _ :: _ => (stop.add 1, memory.write stop 0)

/-- `qstr_btok`: the token, `*endp` and the memory; `none` is `NULL`. -/
def qstrBtok (memory : Memory) (head : CPointer) (killq : Bool) :
    Option (CPointer × CPointer × Memory) :=
  let tok := head.add ((memory.read head).takeWhile isspace).length
  match memory.read tok with
  | [] => none
  | delim :: _ =>
      if isQuote delim then
        let start := tok.add 1
        let close := start.add ((memory.read start).takeWhile fun ch => ch ≠ delim).length
        let stop := if killq ∨ memory.read close = [] then close else close.add 1
        some (if killq then start else tok, memory.cut stop)
      else
        let stop := tok.add ((memory.read tok).takeWhile fun ch => !isspace ch).length
        some (tok, memory.cut stop)

/-- `while (tok = qstr_btok(s, &s, killq))`: the strings at `tok`, in no more than a number of
calls. -/
def qstrBtokAll (killq : Bool) : ℕ → Memory → CPointer → Option (List CString)
  | 0, _, _ => none
  | calls + 1, memory, head =>
      match qstrBtok memory head killq with
      | none => some []
      | some (tok, endp, memory') =>
          (qstrBtokAll killq calls memory' endp).map fun tokens => memory'.read tok :: tokens

/-- One call on the text at the pointer: the token, and the text at `*endp`. -/
def nextToken (killq : Bool) (text : CString) : Option (CString × CString) :=
  match text.dropWhile isspace with
  | [] => none
  | delim :: rest =>
      if isQuote delim then
        let body := rest.takeWhile fun ch => ch ≠ delim
        match rest.dropWhile fun ch => ch ≠ delim with
        | [] => some (if killq then body else delim :: body, [])
        | _ :: after =>
            some (if killq then (body, after) else (delim :: body ++ [delim], after.drop 1))
      else
        some ((delim :: rest).takeWhile fun ch => !isspace ch,
          ((delim :: rest).dropWhile fun ch => !isspace ch).drop 1)

/-- A call leaves less of the text. -/
theorem nextToken_lt {killq : Bool} {text token rest : CString}
    (hnext : nextToken killq text = some (token, rest)) : rest.length < text.length := by
  have hspaces := (List.dropWhile_suffix isspace (l := text)).length_le
  unfold nextToken at hnext
  cases htext : text.dropWhile isspace with
  | nil =>
      rw [htext] at hnext
      cases hnext
  | cons delim more =>
      rw [htext, List.length_cons] at hspaces
      rw [htext] at hnext
      dsimp only at hnext
      by_cases hquote : isQuote delim
      · rw [if_pos hquote] at hnext
        have hclose := (List.dropWhile_suffix (fun ch => decide (ch ≠ delim)) (l := more)).length_le
        cases hafter : more.dropWhile fun ch => ch ≠ delim with
        | nil =>
            rw [hafter] at hnext
            obtain ⟨-, rfl⟩ := Prod.mk.inj (Option.some.inj hnext)
            exact Nat.lt_of_lt_of_le (Nat.succ_pos _) hspaces
        | cons close after =>
            rw [hafter, List.length_cons] at hclose
            rw [hafter] at hnext
            have hrest := congrArg Prod.snd (Option.some.inj hnext)
            rw [apply_ite Prod.snd] at hrest
            dsimp only at hrest
            rw [← hrest]
            split_ifs
            · omega
            · rw [List.length_drop]
              omega
      · rw [if_neg hquote] at hnext
        obtain ⟨-, rfl⟩ := Prod.mk.inj (Option.some.inj hnext)
        have hword :=
          (List.dropWhile_suffix (fun ch => !isspace ch) (l := delim :: more)).length_le
        rw [List.length_cons] at hword
        rw [List.length_drop]
        omega

/-- The tokens of a text. -/
def tokens (killq : Bool) (text : CString) : List CString :=
  match _hnext : nextToken killq text with
  | none => []
  | some (token, rest) => token :: tokens killq rest
termination_by text.length
decreasing_by exact nextToken_lt _hnext

theorem tokens_of_none {killq : Bool} {text : CString} (hnext : nextToken killq text = none) :
    tokens killq text = [] := by
  rw [tokens]
  split
  · rfl
  · rename_i hsome
    rw [hnext] at hsome
    cases hsome

theorem tokens_of_some {killq : Bool} {text token rest : CString}
    (hnext : nextToken killq text = some (token, rest)) :
    tokens killq text = token :: tokens killq rest := by
  rw [tokens]
  split
  · rename_i hnone
    rw [hnext] at hnone
    cases hnone
  · rename_i token' rest' hsome
    rw [hnext] at hsome
    obtain ⟨rfl, rfl⟩ := Prod.mk.inj (Option.some.inj hsome)
    rfl

/-- The string in front of a cut, and the one behind it. -/
theorem Memory.read_cut {memory : Memory} {head : CPointer} {token rest : CString}
    (hread : memory.read head = token ++ rest) :
    (memory.cut (head.add token.length)).2.read head = token ∧
      (memory.cut (head.add token.length)).2.read (memory.cut (head.add token.length)).1 =
        rest.drop 1 := by
  have hstop := read_add hread
  rw [Memory.cut, hstop]
  cases rest with
  | nil => exact ⟨by rw [hread, List.append_nil], hstop⟩
  | cons c rest =>
      have hsplit : memory.read (head.add token.length) = [c] ++ rest := hstop
      refine ⟨read_write_zero hread, ?_⟩
      rw [read_write_succ, List.drop_one, List.tail_cons]
      exact read_add hsplit

theorem Memory.read_takeWhile (memory : Memory) (p : CPointer) (test : CChar → Bool) :
    memory.read (p.add ((memory.read p).takeWhile test).length) = (memory.read p).dropWhile test :=
  read_add List.takeWhile_append_dropWhile.symm

/-- A quoted string that is cut at its closing quote, or behind it when the quotes are kept. -/
theorem Memory.read_cut_quoted {memory : Memory} {tok : CPointer} {delim : CChar}
    {body after : CString} (hread : memory.read tok = delim :: (body ++ after)) {stop : CPointer}
    (killq : Bool) (hstop : stop = if killq ∨ after = [] then (tok.add 1).add body.length
      else ((tok.add 1).add body.length).add 1) :
    (memory.cut stop).2.read (if killq then tok.add 1 else tok) =
        (if killq then body else delim :: (body ++ after.take 1)) ∧
      (memory.cut stop).2.read (memory.cut stop).1 =
        if killq then after.drop 1 else after.drop 2 := by
  have hsplit : memory.read tok = [delim] ++ (body ++ after) := hread
  have hstart : memory.read (tok.add 1) = body ++ after := Memory.read_add hsplit
  rw [CPointer.add_add] at hstop
  cases killq with
  | true =>
      have hcut := Memory.read_cut hstart
      rw [if_pos (.inl rfl), ← CPointer.add_add] at hstop
      rw [hstop]
      exact hcut
  | false =>
      cases after with
      | nil =>
          -- without a closing quote the token ends with the string
          have hquoted : memory.read tok = (delim :: body) ++ [] := by
            rw [hread, List.append_nil, List.append_nil]
          have hcut := Memory.read_cut hquoted
          rw [if_pos (.inr rfl), Nat.add_comm] at hstop
          rw [hstop]
          simpa using hcut
      | cons close after =>
          have hquoted : memory.read tok = (delim :: (body ++ [close])) ++ after := by
            rw [hread, List.cons_append, List.append_assoc, List.singleton_append]
          have hcut := Memory.read_cut hquoted
          have hlength : (delim :: (body ++ [close])).length = 1 + body.length + 1 := by
            rw [List.length_cons, List.length_append, List.length_singleton, Nat.add_comm 1]
          rw [hlength] at hcut
          rw [if_neg (by simp), CPointer.add_add] at hstop
          rw [hstop]
          exact hcut

/-- **A call does the step on the text**: the token is at the pointer that it returns, and the
rest of the text at `*endp`. -/
theorem qstrBtok_eq (memory : Memory) (head : CPointer) (killq : Bool) :
    match nextToken killq (memory.read head) with
    | none => qstrBtok memory head killq = none
    | some (token, rest) => ∃ tok endp memory',
        qstrBtok memory head killq = some (tok, endp, memory') ∧ memory'.read tok = token ∧
          memory'.read endp = rest := by
  have htok := memory.read_takeWhile head isspace
  unfold nextToken qstrBtok
  generalize head.add ((memory.read head).takeWhile isspace).length = tok at htok
  dsimp only
  rw [htok]
  cases htext : (memory.read head).dropWhile isspace with
  | nil => rfl
  | cons delim rest =>
      rw [htext] at htok
      dsimp only
      by_cases hquote : isQuote delim
      · rw [if_pos hquote, if_pos hquote]
        have hsplit : memory.read tok = [delim] ++ rest := htok
        have hstart : memory.read (tok.add 1) = rest := Memory.read_add hsplit
        have hclose := memory.read_takeWhile (tok.add 1) fun ch => ch ≠ delim
        have hbody := (List.takeWhile_append_dropWhile
          (p := fun ch => decide (ch ≠ delim)) (l := rest)).symm
        rw [hstart] at hclose ⊢
        generalize rest.takeWhile (fun ch => decide (ch ≠ delim)) = body at hclose hbody ⊢
        rw [hclose]
        have hcut := Memory.read_cut_quoted (htok.trans (congrArg (delim :: ·) hbody)) killq rfl
        have hnot := List.head?_dropWhile_not (fun ch => decide (ch ≠ delim)) rest
        cases hafter : rest.dropWhile fun ch => ch ≠ delim with
        | nil =>
            rw [hafter] at hcut
            refine ⟨_, _, _, rfl, hcut.1.trans ?_, hcut.2.trans (ite_self _)⟩
            rw [List.take_nil, List.append_nil]
        | cons close after =>
            rw [hafter] at hcut hnot
            obtain rfl : close = delim := by simpa using hnot
            cases killq with
            | true => exact ⟨_, _, _, rfl, hcut.1, hcut.2⟩
            | false => exact ⟨_, _, _, rfl, hcut.1, hcut.2⟩
      · rw [if_neg hquote, if_neg hquote]
        have hword := (List.takeWhile_append_dropWhile
          (p := fun ch => !isspace ch) (l := delim :: rest)).symm
        rw [← htok] at hword
        have hcut := Memory.read_cut hword
        rw [← htok]
        exact ⟨_, _, _, rfl, hcut.1, hcut.2⟩

/-- **The calls come to an end**, and take the text apart into its tokens. -/
theorem qstrBtokAll_eq {killq : Bool} {calls : ℕ} {memory : Memory} {head : CPointer}
    (hcalls : (memory.read head).length < calls) :
    qstrBtokAll killq calls memory head = some (tokens killq (memory.read head)) := by
  induction calls generalizing memory head with
  | zero => cases hcalls
  | succ calls ih =>
      have hcall := qstrBtok_eq memory head killq
      rw [qstrBtokAll]
      cases hnext : nextToken killq (memory.read head) with
      | none =>
          rw [hnext] at hcall
          dsimp only at hcall
          rw [hcall, tokens_of_none hnext]
      | some next =>
          obtain ⟨token, rest⟩ := next
          rw [hnext] at hcall
          obtain ⟨tok, endp, memory', hcall, rfl, rfl⟩ := hcall
          have hshorter := nextToken_lt hnext
          rw [hcall, tokens_of_some hnext]
          dsimp only
          rw [ih (by omega), Option.map_some]

/-! ## Words and quoted strings -/

/-- The text has ended, or a blank is next. -/
def BlankNext (rest : CString) : Prop := ∀ c ∈ rest.head?, isspace c = true

/-- A word: not empty, without blanks, and not beginning with a quote. -/
structure IsWord (word : CString) : Prop where
  ne_nil : word ≠ []
  not_space : ∀ c ∈ word, isspace c = false
  not_quote : ∀ c ∈ word.head?, ¬ isQuote c

section Texts

variable (killq : Bool)

/-- Blanks in front are skipped. -/
theorem nextToken_spaces {spaces : CString} (hspaces : ∀ c ∈ spaces, isspace c = true)
    (text : CString) : nextToken killq (spaces ++ text) = nextToken killq text := by
  rw [nextToken, List.dropWhile_append_of_pos hspaces, ← nextToken]

theorem nextToken_nil : nextToken killq [] = none := rfl

/-- What a blank ends: nothing of the rest is taken. -/
theorem takeWhile_blankNext {rest : CString} (hblank : BlankNext rest) :
    (rest.takeWhile fun ch => !isspace ch) = [] ∧
      (rest.dropWhile fun ch => !isspace ch) = rest := by
  cases rest with
  | nil => exact ⟨rfl, rfl⟩
  | cons c rest =>
      have hspace : (!isspace c) = false := by rw [hblank c rfl]; rfl
      constructor
      · rw [List.takeWhile_cons_of_neg (by rw [hspace]; exact Bool.false_ne_true)]
      · rw [List.dropWhile_cons_of_neg (by rw [hspace]; exact Bool.false_ne_true)]

/-- A word is taken up to the blank. -/
theorem nextToken_word {word rest : CString} (hword : IsWord word) (hblank : BlankNext rest) :
    nextToken killq (word ++ rest) = some (word, rest.drop 1) := by
  obtain ⟨hne, hspace, hquote⟩ := hword
  have hall : ∀ c ∈ word, (!isspace c) = true := by
    intro c hc
    rw [hspace c hc]
    rfl
  cases word with
  | nil => exact absurd rfl hne
  | cons c word =>
      have hfirst : ¬ isspace c = true := by
        rw [hspace c List.mem_cons_self]
        exact Bool.false_ne_true
      unfold nextToken
      rw [List.cons_append, List.dropWhile_cons_of_neg hfirst]
      dsimp only
      rw [if_neg (hquote c rfl), ← List.cons_append, List.takeWhile_append_of_pos hall,
        List.dropWhile_append_of_pos hall, (takeWhile_blankNext hblank).1,
        (takeWhile_blankNext hblank).2, List.append_nil]

/-- A quoted string is taken up to the closing quote. -/
theorem nextToken_quoted {quote : CChar} {body : CString} (hquote : isQuote quote)
    (hbody : quote ∉ body) (rest : CString) :
    nextToken killq (quote :: body ++ quote :: rest) =
      some (if killq then (body, rest) else (quote :: body ++ [quote], rest.drop 1)) := by
  have hfirst : ¬ isspace quote = true := by
    rw [isspace_of_isQuote hquote]
    exact Bool.false_ne_true
  have hall : ∀ c ∈ body, decide (c ≠ quote) = true :=
    fun c hc => decide_eq_true fun heq => hbody (heq ▸ hc)
  have htake : (quote :: rest).takeWhile (fun c => decide (c ≠ quote)) = [] :=
    List.takeWhile_cons_of_neg (by simp)
  have hdrop : (quote :: rest).dropWhile (fun c => decide (c ≠ quote)) = quote :: rest :=
    List.dropWhile_cons_of_neg (by simp)
  unfold nextToken
  rw [List.cons_append, List.dropWhile_cons_of_neg hfirst]
  dsimp only
  rw [if_pos hquote, List.takeWhile_append_of_pos hall, List.dropWhile_append_of_pos hall, htake,
    hdrop, List.append_nil]

/-- Without a closing quote the rest of the text is taken. -/
theorem nextToken_unclosed {quote : CChar} {body : CString} (hquote : isQuote quote)
    (hbody : quote ∉ body) :
    nextToken killq (quote :: body) = some (if killq then body else quote :: body, []) := by
  have hfirst : ¬ isspace quote = true := by
    rw [isspace_of_isQuote hquote]
    exact Bool.false_ne_true
  have hall : ∀ c ∈ body, decide (c ≠ quote) = true :=
    fun c hc => decide_eq_true fun heq => hbody (heq ▸ hc)
  unfold nextToken
  rw [List.dropWhile_cons_of_neg hfirst]
  dsimp only
  rw [if_pos hquote, List.takeWhile_eq_self_iff.mpr hall, List.dropWhile_eq_nil_iff.mpr hall]

theorem tokens_nil : tokens killq [] = [] := tokens_of_none (nextToken_nil killq)

theorem tokens_spaces {spaces : CString} (hspaces : ∀ c ∈ spaces, isspace c = true)
    (text : CString) : tokens killq (spaces ++ text) = tokens killq text := by
  have hnext := nextToken_spaces killq hspaces text
  cases htext : nextToken killq text with
  | none => rw [tokens_of_none htext, tokens_of_none (hnext.trans htext)]
  | some next => rw [tokens_of_some htext, tokens_of_some (hnext.trans htext)]

end Texts

/-- An item of a list: a word, or a quoted string. -/
inductive QstrItem
  | plain (word : CString) (hword : IsWord word)
  | quoted (quote : CChar) (body : CString) (hquote : isQuote quote) (hbody : quote ∉ body)

namespace QstrItem

/-- The item as it is written. -/
def written : QstrItem → CString
  | .plain word _ => word
  | .quoted quote body _ _ => quote :: body ++ [quote]

/-- The item without its quotes. -/
def unquoted : QstrItem → CString
  | .plain word _ => word
  | .quoted _ body _ _ => body

/-- What is returned for the item. -/
def token (killq : Bool) (item : QstrItem) : CString :=
  if killq then item.unquoted else item.written

end QstrItem

/-- Items, each with the blanks behind it: there are some between two items. -/
def Spaced : List (QstrItem × CString) → Prop
  | [] => True
  | [(_, gap)] => ∀ c ∈ gap, isspace c = true
  | (_, gap) :: next :: rest => gap ≠ [] ∧ (∀ c ∈ gap, isspace c = true) ∧ Spaced (next :: rest)

/-- The text of the items. -/
def spacedText (items : List (QstrItem × CString)) : CString :=
  items.flatMap fun item => item.1.written ++ item.2

theorem Spaced.cons {item : QstrItem} {gap : CString} {rest : List (QstrItem × CString)}
    (hspaced : Spaced ((item, gap) :: rest)) :
    (∀ c ∈ gap, isspace c = true) ∧ BlankNext (gap ++ spacedText rest) ∧ Spaced rest := by
  cases rest with
  | nil =>
      refine ⟨hspaced, fun c hc => hspaced c ?_, trivial⟩
      rw [spacedText, List.flatMap_nil, List.append_nil] at hc
      exact List.mem_of_mem_head? hc
  | cons next rest =>
      obtain ⟨hne, hgap, hrest⟩ := hspaced
      refine ⟨hgap, fun c hc => hgap c ?_, hrest⟩
      rw [List.head?_append_of_ne_nil _ hne] at hc
      exact List.mem_of_mem_head? hc

/-- The blank behind a token is overwritten, and the others are skipped. -/
theorem tokens_drop_gap (killq : Bool) {gap : CString} (hgap : ∀ c ∈ gap, isspace c = true)
    {text : CString} (hblank : BlankNext (gap ++ text)) :
    tokens killq ((gap ++ text).drop 1) = tokens killq text := by
  cases gap with
  | nil =>
      cases text with
      | nil => rfl
      | cons c text =>
          have hspace : ∀ d ∈ [c], isspace d = true := by
            intro d hd
            rw [List.mem_singleton.mp hd]
            exact hblank c rfl
          exact (tokens_spaces killq hspace text).symm
  | cons c gap =>
      rw [List.cons_append, List.drop_one, List.tail_cons]
      exact tokens_spaces killq (fun d hd => hgap d (List.mem_cons_of_mem _ hd)) text

/-- **The tokens of a list of items are the items.** -/
theorem tokens_spacedText (killq : Bool) {items : List (QstrItem × CString)}
    (hspaced : Spaced items) :
    tokens killq (spacedText items) = items.map fun item => item.1.token killq := by
  induction items with
  | nil => exact tokens_nil killq
  | cons item items ih =>
      obtain ⟨item, gap⟩ := item
      obtain ⟨hgap, hblank, hrest⟩ := hspaced.cons
      have hbehind := (tokens_drop_gap killq hgap hblank).trans (ih hrest)
      rw [List.map_cons, ← hbehind]
      cases item with
      | plain word hword =>
          have hnext := nextToken_word killq hword hblank
          have htext : spacedText ((QstrItem.plain word hword, gap) :: items) =
              word ++ (gap ++ spacedText items) := List.append_assoc _ _ _
          rw [htext, tokens_of_some hnext]
          cases killq <;> rfl
      | quoted quote body hquote hbody =>
          have hnext := nextToken_quoted killq hquote hbody (gap ++ spacedText items)
          have htext : spacedText ((QstrItem.quoted quote body hquote hbody, gap) :: items) =
              quote :: body ++ quote :: (gap ++ spacedText items) := by
            simp [spacedText, QstrItem.written]
          rw [htext]
          cases killq with
          | false => rw [tokens_of_some hnext]; rfl
          | true =>
              rw [tokens_of_some hnext, tokens_spaces true hgap, hbehind, ← ih hrest]
              rfl

/-- **`qstr_btok` splits lists of items exactly.** Words and quoted strings with blanks between
them, and perhaps in front and behind, are returned in order, as they are written or without
their quotes, and then `NULL`. -/
theorem qstrBtokAll_items (killq : Bool) {lead : CString} {items : List (QstrItem × CString)}
    (hlead : ∀ c ∈ lead, isspace c = true) (hspaced : Spaced items) {memory : Memory}
    {head : CPointer} (hread : memory.read head = lead ++ spacedText items) (more : ℕ) :
    qstrBtokAll killq ((memory.read head).length + 1 + more) memory head =
      some (items.map fun item => item.1.token killq) := by
  rw [qstrBtokAll_eq (by omega), hread, tokens_spaces killq hlead,
    tokens_spacedText killq hspaced]

theorem isWord_star : IsWord [star] := ⟨by simp, by decide, by decide⟩

/-- A word and an empty quoted string. -/
def twoItems : List (QstrItem × CString) :=
  [(.plain [star] isWord_star, [blank]), (.quoted doubleQuote [] rfl List.not_mem_nil, [])]

/-- A memory with the text in every array. -/
def Memory.filled (text : CString) : Memory := fun _ => bytesOf text ++ [0]

theorem Memory.read_filled (text : CString) : (Memory.filled text).read ⟨0, 0⟩ = text :=
  textOf_bytesOf text []

/-- The text ` * ""`, without the quotes. -/
theorem qstrBtokAll_items_two :
    qstrBtokAll true 6 (Memory.filled [blank, star, blank, doubleQuote, doubleQuote]) ⟨0, 0⟩ =
      some [[star], []] := by
  have hlead : ∀ c ∈ [blank], isspace c = true := by decide
  have hspaced : Spaced twoItems := ⟨List.cons_ne_nil _ _, hlead, fun _ hc => nomatch hc⟩
  have hread : (Memory.filled [blank, star, blank, doubleQuote, doubleQuote]).read ⟨0, 0⟩ =
      [blank] ++ spacedText twoItems := Memory.read_filled _
  have hrun := qstrBtokAll_items true hlead hspaced hread 0
  rw [hread] at hrun
  exact hrun

/-! ## Text behind a closing quote -/

/-- The characters that are not blanks. -/
def inked (text : CString) : CString := text.filter fun c => !isspace c

/-- Calls with `killq` false lose nothing: the tokens have every character but the blanks, once
and in order. -/
def KeepsText (memory : Memory) (head : CPointer) : Prop :=
  ∀ more, ∃ found,
    qstrBtokAll false ((memory.read head).length + 1 + more) memory head = some found ∧
    inked found.flatten = inked (memory.read head)

/-- Texts in which nothing but a blank is behind a closing quote. -/
inductive Separated : CString → Prop
  | nil : Separated []
  | space {c : CChar} {text : CString} : isspace c = true → Separated text → Separated (c :: text)
  | word {word rest : CString} : IsWord word → BlankNext rest → Separated rest →
      Separated (word ++ rest)
  | quoted {quote : CChar} {body rest : CString} : isQuote quote → quote ∉ body →
      BlankNext rest → Separated rest → Separated (quote :: body ++ quote :: rest)
  | unclosed {quote : CChar} {body : CString} : isQuote quote → quote ∉ body →
      Separated (quote :: body)

theorem inked_append (a b : CString) : inked (a ++ b) = inked a ++ inked b := List.filter_append _ _

theorem inked_cons_of_space {c : CChar} (hspace : isspace c = true) (text : CString) :
    inked (c :: text) = inked text := by
  rw [inked, List.filter_cons_of_neg (by simp [hspace]), inked]

theorem inked_cons_of_not_space {c : CChar} (hspace : ¬ isspace c = true) (text : CString) :
    inked (c :: text) = c :: inked text := by
  rw [inked, List.filter_cons_of_pos (by simp [hspace]), inked]

/-- A text without a quote in front begins with a word. -/
theorem exists_word {c : CChar} (hspace : ¬ isspace c = true) (hquote : ¬ isQuote c)
    (text : CString) :
    ∃ word rest, IsWord word ∧ BlankNext rest ∧ c :: text = word ++ rest := by
  refine ⟨(c :: text).takeWhile fun ch => !isspace ch, (c :: text).dropWhile fun ch => !isspace ch,
    ⟨?_, ?_, ?_⟩, ?_, List.takeWhile_append_dropWhile.symm⟩
  · rw [List.takeWhile_cons_of_pos (by simp [hspace])]
    exact List.cons_ne_nil _ _
  · intro d hd
    simpa using List.mem_takeWhile_imp hd
  · intro d hd
    rw [List.takeWhile_cons_of_pos (by simp [hspace])] at hd
    rwa [← Option.some.inj hd]
  · intro d hd
    have hnot := List.head?_dropWhile_not (fun ch => !isspace ch) (c :: text)
    rw [Option.mem_def.mp hd] at hnot
    simpa using hnot

/-- **Every text can be taken apart**: blanks, words, and quoted strings, the last one perhaps
without a closing quote. -/
theorem text_induction {P : CString → Prop} (nil : P [])
    (space : ∀ c text, isspace c = true → P text → P (c :: text))
    (word : ∀ word rest, IsWord word → BlankNext rest → P rest → P (word ++ rest))
    (quoted : ∀ quote body rest, isQuote quote → quote ∉ body → P rest → P (rest.drop 1) →
      P (quote :: body ++ quote :: rest))
    (unclosed : ∀ quote body, isQuote quote → quote ∉ body → P (quote :: body))
    (text : CString) : P text := by
  induction hlength : text.length using Nat.strong_induction_on generalizing text with
  | _ length ih =>
      cases text with
      | nil => exact nil
      | cons c text =>
          rw [List.length_cons] at hlength
          by_cases hspace : isspace c = true
          · exact space c text hspace (ih _ (by omega) text rfl)
          · by_cases hquote : isQuote c
            · by_cases hbody : c ∈ text
              · obtain ⟨body, rest, rfl, hfirst⟩ := List.eq_append_cons_of_mem hbody
                rw [List.length_append, List.length_cons] at hlength
                have hdrop := List.length_drop (i := 1) (l := rest)
                exact quoted c body rest hquote hfirst (ih _ (by omega) rest rfl)
                  (ih _ (by omega) (rest.drop 1) rfl)
              · exact unclosed c text hquote hbody
            · obtain ⟨first, rest, hword, hblank, hsplit⟩ := exists_word hspace hquote text
              have hshorter := congrArg List.length hsplit
              have hpos := List.length_pos_of_ne_nil hword.ne_nil
              rw [List.length_cons, List.length_append] at hshorter
              rw [hsplit]
              exact word first rest hword hblank (ih _ (by omega) rest rfl)

/-- If a blank is next, it makes no difference that it is overwritten. -/
theorem tokens_drop_one {rest : CString} (hblank : BlankNext rest) :
    tokens false (rest.drop 1) = tokens false rest := by
  have hnone : ∀ c ∈ ([] : CString), isspace c = true := by simp
  exact tokens_drop_gap false hnone hblank

theorem tokens_space {c : CChar} (hspace : isspace c = true) (text : CString) :
    tokens false (c :: text) = tokens false text := by
  have hspaces : ∀ d ∈ [c], isspace d = true := by simpa using hspace
  exact tokens_spaces false hspaces text

theorem tokens_word {word rest : CString} (hword : IsWord word) (hblank : BlankNext rest) :
    tokens false (word ++ rest) = word :: tokens false rest := by
  rw [tokens_of_some (nextToken_word false hword hblank), tokens_drop_one hblank]

theorem tokens_quoted {quote : CChar} {body : CString} (hquote : isQuote quote)
    (hbody : quote ∉ body) (rest : CString) :
    tokens false (quote :: body ++ quote :: rest) =
      (quote :: body ++ [quote]) :: tokens false (rest.drop 1) :=
  tokens_of_some (nextToken_quoted false hquote hbody rest)

theorem tokens_unclosed {quote : CChar} {body : CString} (hquote : isQuote quote)
    (hbody : quote ∉ body) : tokens false (quote :: body) = [quote :: body] := by
  rw [tokens_of_some (nextToken_unclosed false hquote hbody), tokens_nil]
  rfl

/-- A quoted string and the text behind it. -/
theorem inked_quoted (quote : CChar) (body rest : CString) :
    inked (quote :: body ++ quote :: rest) = inked (quote :: body ++ [quote]) ++ inked rest := by
  rw [← inked_append, List.append_assoc, List.singleton_append]

/-- No call invents text. -/
theorem inked_tokens_sublist (text : CString) :
    (inked (tokens false text).flatten).Sublist (inked text) := by
  induction text using text_induction with
  | nil =>
      rw [tokens_nil]
      exact List.Sublist.refl _
  | space c text hspace ih =>
      rwa [tokens_space hspace, inked_cons_of_space hspace]
  | word word rest hword hblank ih =>
      rw [tokens_word hword hblank, List.flatten_cons, inked_append, inked_append]
      exact (List.Sublist.refl _).append ih
  | quoted quote body rest hquote hbody _ ih =>
      rw [tokens_quoted hquote hbody, List.flatten_cons, inked_append, inked_quoted quote body rest]
      exact (List.Sublist.refl _).append (ih.trans ((List.drop_sublist 1 rest).filter _))
  | unclosed quote body hquote hbody =>
      rw [tokens_unclosed hquote hbody, List.flatten_singleton]

theorem Separated.of_inked {text : CString} :
    inked (tokens false text).flatten = inked text → Separated text := by
  induction text using text_induction with
  | nil => exact fun _ => .nil
  | space c text hspace ih =>
      intro hkeeps
      rw [tokens_space hspace, inked_cons_of_space hspace] at hkeeps
      exact .space hspace (ih hkeeps)
  | word word rest hword hblank ih =>
      intro hkeeps
      rw [tokens_word hword hblank, List.flatten_cons, inked_append, inked_append] at hkeeps
      exact .word hword hblank (ih (List.append_cancel_left hkeeps))
  | quoted quote body rest hquote hbody ih _ =>
      intro hkeeps
      rw [tokens_quoted hquote hbody, List.flatten_cons, inked_append,
        inked_quoted quote body rest] at hkeeps
      have hrest := List.append_cancel_left hkeeps
      have hblank : BlankNext rest := by
        intro c hc
        by_contra hspace
        obtain ⟨rest, rfl⟩ : ∃ more, rest = c :: more := ⟨rest.tail, List.eq_cons_of_mem_head? hc⟩
        -- the byte that is overwritten is missing
        have hle := (inked_tokens_sublist rest).length_le
        rw [List.drop_one, List.tail_cons, inked_cons_of_not_space hspace] at hrest
        rw [hrest, List.length_cons] at hle
        omega
      rw [tokens_drop_one hblank] at hrest
      exact .quoted hquote hbody hblank (ih hrest)
  | unclosed quote body hquote hbody => exact fun _ => .unclosed hquote hbody

theorem Separated.inked_tokens {text : CString} (hseparated : Separated text) :
    inked (tokens false text).flatten = inked text := by
  induction hseparated with
  | nil => rw [tokens_nil]; rfl
  | space hspace _ ih => rw [tokens_space hspace, inked_cons_of_space hspace, ih]
  | word hword hblank _ ih =>
      rw [tokens_word hword hblank, List.flatten_cons, inked_append, inked_append, ih]
  | @quoted quote body rest hquote hbody hblank _ ih =>
      rw [tokens_quoted hquote hbody, List.flatten_cons, inked_append, inked_quoted quote body rest,
        tokens_drop_one hblank, ih]
  | unclosed hquote hbody => rw [tokens_unclosed hquote hbody, List.flatten_singleton]

/-- **`qstr_btok` loses no text exactly if nothing but a blank is behind a closing quote.** -/
theorem keepsText_iff (memory : Memory) (head : CPointer) :
    KeepsText memory head ↔ Separated (memory.read head) := by
  constructor
  · intro hkeeps
    obtain ⟨found, hrun, hinked⟩ := hkeeps 0
    rw [qstrBtokAll_eq (by omega)] at hrun
    obtain rfl := Option.some.inj hrun
    exact .of_inked hinked
  · intro hseparated more
    exact ⟨_, qstrBtokAll_eq (by omega), hseparated.inked_tokens⟩

/-- `"*"*`: the second star is overwritten. -/
theorem not_keepsText_adjacent :
    ¬ KeepsText (Memory.filled [doubleQuote, star, doubleQuote, star]) ⟨0, 0⟩ := by
  intro hkeeps
  obtain ⟨found, hrun, hinked⟩ := hkeeps 0
  have htokens : tokens false [doubleQuote, star, doubleQuote, star] =
      [[doubleQuote, star, doubleQuote]] := by
    have hquoted := tokens_quoted (show isQuote doubleQuote from rfl)
      (show doubleQuote ∉ [star] by decide) [star]
    rw [List.drop_one, List.tail_cons, tokens_nil] at hquoted
    exact hquoted
  rw [qstrBtokAll_eq (by omega), Memory.read_filled, htokens] at hrun
  obtain rfl := Option.some.inj hrun
  rw [Memory.read_filled] at hinked
  exact absurd hinked (by decide)

end BasC
