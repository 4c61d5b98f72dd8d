/-
# Who owns the arguments

What the functions under `args_parse` do with their memory. Each has a triple: the blocks that it
is given, the blocks that it leaves, and the texts in them. `parse_arg` and the first loop leave the
raw words, `expand_brace` and `expand_wildcard` leave an array of strings or nothing at all, and a
`string_list` holds what it has been given.
-/

import BasC.Cli.ArgsHeap

namespace BasC

open CChar Lib

/-- The blocks of some strings. -/
def blocks (strings : List HeapString) : Multiset ℕ := strings.map HeapString.block

/-- The texts of some strings. -/
def texts (strings : List HeapString) : List CString := strings.map HeapString.text

section Blocks

variable (str : HeapString) (strings strings' : List HeapString)

@[simp]
theorem blocks_nil : blocks [] = 0 := rfl

@[simp]
theorem blocks_cons : blocks (str :: strings) = {str.block} + blocks strings := rfl

@[simp]
theorem blocks_append : blocks (strings ++ strings') = blocks strings + blocks strings' := by
  simp [blocks]

@[simp]
theorem texts_append : texts (strings ++ strings') = texts strings ++ texts strings' :=
  List.map_append

end Blocks

/-- The blocks of an array of strings. -/
def HeapArray.held (array : HeapArray) : Multiset ℕ := {array.block} + blocks array.strings.items

/-- The texts of an array of strings. -/
def HeapArray.words (array : HeapArray) : List CString := texts array.strings.items

/-- The blocks of a list of strings. -/
def HeapList.held (list : HeapList) : Multiset ℕ :=
  {list.list} + list.items.toList + blocks list.strings

section Owned

variable {grants : Grants}

theorem owns_freeStrings (strings : List HeapString) :
    Owns (blocks strings) (free (strings.map HeapString.block)) fun _ left => left = 0 :=
  owns_free _

theorem owns_storeByte (block : ℕ) (result : GrowArray CChar 1) (c : CChar) :
    Owns {block} (storeByte grants block result c) fun out left =>
      out.elim (left = 0 ∧ ¬ Met grants) fun stored =>
        left = {stored.1} ∧ stored.2 = result.push c := by
  unfold storeByte
  split
  · refine (owns_realloc _ (some block)).step fun out left hout => ?_
    obtain ⟨hnone, hsome, hmet⟩ := hout
    cases out with
    | none =>
        rw [hnone rfl]
        refine (owns_freeOne block).step fun _ left hleft => owns_pure ⟨hleft, fun hall => ?_⟩
        exact hmet (hall _) rfl
    | some block' => exact owns_pure ⟨hsome _ rfl, rfl⟩
  · exact owns_pure ⟨rfl, rfl⟩

/-- The loop of `parse_arg` has one block all along, and reads as the loop without memory. -/
theorem owns_parseArgLoopIn (line : CString) (quoteChar : Option CChar) (escaped : Bool)
    (block : ℕ) (result : GrowArray CChar 1) :
    Owns {block} (parseArgLoopIn grants line quoteChar escaped block result) fun out left =>
      out.elim (left = 0 ∧ ¬ Met grants) fun loop =>
        left = {loop.2.2.1} ∧
          parseArgLoop line quoteChar escaped result = (loop.1, loop.2.1, loop.2.2.2) := by
  induction line generalizing quoteChar escaped block result with
  | nil => exact owns_pure ⟨rfl, by cases escaped <;> rfl⟩
  | cons c line ih =>
      have hstore (quoteChar : Option CChar) :
          Owns {block} (parseArgLoopIn grants (c :: line) quoteChar true block result)
            fun out left => out.elim (left = 0 ∧ ¬ Met grants) fun loop =>
              left = {loop.2.2.1} ∧ parseArgLoop line quoteChar false (result.push c) =
                (loop.1, loop.2.1, loop.2.2.2) := by
        refine (owns_storeByte block result c).step fun out left hout => ?_
        cases out with
        | none => exact owns_pure hout
        | some stored =>
            obtain ⟨block', result'⟩ := stored
            obtain ⟨rfl, rfl⟩ := hout
            exact ih quoteChar false block' (result.push c)
      cases escaped with
      | true => exact hstore quoteChar
      | false =>
          unfold parseArgLoopIn parseArgLoop
          by_cases hescape : c = backslash
          · rw [if_pos hescape, if_pos hescape]
            exact ih quoteChar true block result
          · rw [if_neg hescape, if_neg hescape]
            cases quoteChar with
            | some q =>
                dsimp only
                by_cases hclose : c = q
                · rw [if_pos hclose, if_pos hclose]
                  exact ih none false block result
                · rw [if_neg hclose, if_neg hclose]
                  exact hstore (some q)
            | none =>
                dsimp only
                by_cases hopen : c = singleQuote ∨ c = doubleQuote
                · rw [if_pos hopen, if_pos hopen]
                  exact ih (some c) false block result
                · rw [if_neg hopen, if_neg hopen]
                  by_cases hspace : isspace c = true
                  · rw [if_pos hspace, if_pos hspace]
                    exact owns_pure ⟨rfl, rfl⟩
                  · rw [if_neg hspace, if_neg hspace]
                    exact hstore none

/-- What `parse_arg` leaves: a string that it has read, and nothing when it returns `NULL`. -/
def HeapArg.Leaves (grants : Grants) (line : CString) (left : Multiset ℕ) : HeapArg → Prop
  | .endOfLine => left = 0 ∧ parseArg line = .endOfLine
  | .error => left = 0 ∧ (Met grants → parseArg line = .unmatchedQuote)
  | .arg str rest => left = {str.block} ∧ parseArg line = .arg str.text rest

theorem owns_parseArgIn (line : CString) :
    Owns 0 (parseArgIn grants line) fun out left => out.Leaves grants line left := by
  refine (owns_malloc _).step fun out left hout => ?_
  obtain ⟨rfl, hmet⟩ := hout
  cases out with
  | none => exact owns_pure ⟨rfl, fun hall => absurd rfl (hmet (hall _))⟩
  | some block =>
      dsimp only
      cases hskip : skipSpaces line with
      | nil =>
          refine (owns_freeOne block).step fun _ left hleft => owns_pure ⟨hleft, ?_⟩
          simp only [parseArg, hskip]
      | cons c rest =>
          refine (owns_parseArgLoopIn (c :: rest) none false block argBuffer).step
            fun out left hout => ?_
          cases out with
          | none => exact owns_pure ⟨hout.1, fun hall => absurd hall hout.2⟩
          | some loop =>
              obtain ⟨after, quoteChar, block', result⟩ := loop
              obtain ⟨rfl, hloop⟩ := hout
              cases quoteChar with
              | some q =>
                  refine (owns_freeOne block').step fun _ left hleft =>
                    owns_pure ⟨hleft, fun _ => ?_⟩
                  simp only [parseArg, hskip, hloop]
              | none =>
                  refine owns_pure ⟨rfl, ?_⟩
                  simp only [parseArg, hskip, hloop]

/-- An array keeps its strings, or takes one more. -/
theorem owns_push (grant : ℕ → Bool) (array : HeapArray) (arg : HeapString) :
    Owns array.held (array.push grant arg) fun out left =>
      (out.1 = true → left + {arg.block} = out.2.held ∧
        out.2.strings.items = array.strings.items ++ [arg]) ∧
      (out.1 = false → left = array.held ∧ out.2 = array ∧ ¬ ∀ n, grant n) := by
  unfold HeapArray.push
  split
  · refine (owns_realloc grant (some array.block)).bind rfl fun out left hout => ?_
    obtain ⟨hnone, hsome, hmet⟩ := hout
    cases out with
    | none =>
        rw [hnone rfl]
        exact owns_pure ⟨fun h => absurd h Bool.false_ne_true,
          fun _ => ⟨rfl, rfl, fun hall => hmet hall rfl⟩⟩
    | some block =>
        rw [hsome _ rfl]
        refine owns_pure ⟨fun _ => ⟨?_, rfl⟩, fun h => absurd h.symm Bool.false_ne_true⟩
        simp [HeapArray.held]
  · refine owns_pure ⟨fun _ => ⟨?_, rfl⟩, fun h => absurd h.symm Bool.false_ne_true⟩
    simp [HeapArray.held]

theorem owns_releaseArray (array : HeapArray) :
    Owns array.held array.release fun _ left => left = 0 := by
  refine (owns_freeStrings array.strings.items).bind (add_comm _ _) fun _ left hleft => ?_
  rw [hleft, zero_add]
  exact owns_freeOne array.block

theorem rawArgsLoop_of_skip_nil {p : CString} (hskip : skipSpaces p = [])
    (raw : GrowArray CString 0) : rawArgsLoop p raw = some raw := by
  rw [rawArgsLoop.eq_def]
  split
  · rfl
  · rename_i hcons
    rw [hskip] at hcons
    cases hcons

theorem rawArgsLoop_of_skip_cons {p line : CString} {c : CChar} (hskip : skipSpaces p = c :: line)
    (raw : GrowArray CString 0) :
    (parseArg (c :: line) = .endOfLine → rawArgsLoop p raw = some raw) ∧
      (parseArg (c :: line) = .unmatchedQuote → rawArgsLoop p raw = none) ∧
      (∀ arg rest, parseArg (c :: line) = .arg arg rest →
        rawArgsLoop p raw = rawArgsLoop rest (raw.push arg)) := by
  rw [rawArgsLoop.eq_def]
  split
  · rename_i hnil
    rw [hskip] at hnil
    cases hnil
  · rename_i c' line' hcons
    obtain ⟨rfl, rfl⟩ := List.cons.inj (hskip.symm.trans hcons)
    split
    · rename_i harg
      exact ⟨fun _ => rfl, fun h => by simp [harg] at h, fun _ _ h => by simp [harg] at h⟩
    · rename_i harg
      exact ⟨fun h => by simp [harg] at h, fun _ => rfl, fun _ _ h => by simp [harg] at h⟩
    · rename_i arg rest harg
      refine ⟨fun h => by simp [harg] at h, fun h => by simp [harg] at h, fun arg' rest' h => ?_⟩
      rw [harg] at h
      obtain ⟨rfl, rfl⟩ := ParsedArg.arg.inj h
      rfl

/-- The first loop keeps what it has read in its array. -/
theorem owns_rawArgsLoopIn (rounds : ℕ) (p : CString) (raw : HeapArray)
    (words : GrowArray CString 0) (hwords : words.items = raw.words) (hrounds : p.length ≤ rounds) :
    Owns raw.held (rawArgsLoopIn grants rounds p raw) fun out left =>
      out.elim (left = 0 ∧ (Met grants → rawArgsLoop p words = none)) fun raw' =>
        left = raw'.held ∧ (rawArgsLoop p words).map GrowArray.items = some raw'.words := by
  induction rounds generalizing p raw words with
  | zero =>
      obtain rfl := List.eq_nil_of_length_eq_zero (Nat.le_zero.mp hrounds)
      refine owns_pure ⟨rfl, ?_⟩
      rw [rawArgsLoop_of_skip_nil rfl, Option.map_some, hwords]
  | succ rounds ih =>
      unfold rawArgsLoopIn
      cases hskip : skipSpaces p with
      | nil =>
          refine owns_pure ⟨rfl, ?_⟩
          rw [rawArgsLoop_of_skip_nil hskip, Option.map_some, hwords]
      | cons c line =>
          obtain ⟨hend, hquote, harg⟩ := rawArgsLoop_of_skip_cons hskip words
          refine (owns_parseArgIn (c :: line)).bind (zero_add _).symm fun out left hout => ?_
          cases out with
          | endOfLine =>
              obtain ⟨rfl, hparse⟩ := hout
              rw [zero_add]
              refine owns_pure ⟨rfl, ?_⟩
              rw [hend hparse, Option.map_some, hwords]
          | error =>
              obtain ⟨rfl, hparse⟩ := hout
              rw [zero_add]
              exact (owns_releaseArray raw).step fun _ left hleft =>
                owns_pure ⟨hleft, fun hall => hquote (hparse hall)⟩
          | arg str rest =>
              obtain ⟨rfl, hparse⟩ := hout
              refine (owns_push (grants .rawArgsGrow) raw str).bind (add_comm _ _)
                fun out left hout => ?_
              obtain ⟨stored, raw'⟩ := out
              cases stored with
              | false =>
                  obtain ⟨rfl, rfl, hrefused⟩ := hout.2 rfl
                  refine (owns_freeOne str.block).bind (add_comm _ _) fun _ left hleft => ?_
                  rw [hleft, zero_add]
                  exact (owns_releaseArray raw').step fun _ left hleft =>
                    owns_pure ⟨hleft, fun hall => absurd (hall _) hrefused⟩
              | true =>
                  obtain ⟨hheld, hitems⟩ := hout.1 rfl
                  rw [hheld, harg _ _ hparse]
                  have hlt := (parseArg_rest_length_lt hparse).trans_le
                    (skipSpaces_eq_cons hskip).2
                  refine ih rest raw' (words.push str.text) ?_ (by omega)
                  rw [GrowArray.push_items, hwords, HeapArray.words, HeapArray.words, hitems,
                    texts_append]
                  rfl

/-! ## Braces -/

/-- What `expand_brace` leaves: the expansions when it returns 1, and nothing when it does not. -/
structure BraceOut.Leaves (grants : Grants) (pattern : CString) (out : BraceOut)
    (left : Multiset ℕ) : Prop where
  held : left = out.expansions.toList + blocks out.strings
  expanded : 0 < out.ret → texts out.strings = expandBrace pattern ∧ out.strings ≠ []
  kept : ¬ 0 < out.ret →
    out.expansions = none ∧ out.strings = [] ∧ (Met grants → expandBrace pattern = [])

section Braces

variable (hitem : ∀ n, grants .braceItem n) (hgrow : ∀ n, grants .braceGrow n)

include hitem hgrow

/-- The loop over the items, when it has all the memory that it asks for. -/
theorem owns_addExpansions (before after : CString) (scratch : List ℕ) (items : List CString)
    (capacity : ℕ) (expansions : Option ℕ) (strings : List HeapString)
    (hempty : strings = [] → expansions = none) :
    Owns (scratch + expansions.toList + blocks strings)
      (addExpansions grants before after scratch items capacity expansions strings)
      fun out left =>
        left = out.expansions.toList + blocks out.strings ∧
          texts out.strings = texts strings ++ items.map (fun item => before ++ item ++ after) ∧
          (0 < out.ret ↔ out.strings ≠ []) ∧ (out.strings = [] → out.expansions = none) := by
  induction items generalizing capacity expansions strings with
  | nil =>
      refine (owns_free scratch).bind (add_assoc _ _ _) fun _ left hleft => ?_
      rw [hleft, zero_add]
      refine owns_pure ⟨rfl, (List.append_nil _).symm, ?_, hempty⟩
      by_cases hstrings : strings = []
      · simp [hstrings]
      · simp [hstrings, List.length_pos_iff]
  | cons item items ih =>
      refine (owns_malloc _).bind (zero_add _).symm fun out left hout => ?_
      obtain ⟨rfl, hmet⟩ := hout
      cases out with
      | none => exact absurd rfl (hmet hitem)
      | some block =>
          dsimp only
          split
          · refine (owns_realloc (grants .braceGrow) expansions).bind
              (r := {block} + scratch + blocks strings) (by rw [toList_some]; abel)
              fun out left hout => ?_
            cases out with
            | none => exact absurd rfl (hout.2.2 hgrow)
            | some expansions' =>
                have hih := ih (if capacity = 0 then 8 else capacity * 2) (some expansions')
                  (strings ++ [⟨block, before ++ item ++ after⟩]) (by simp)
                rw [hout.2.1 _ rfl]
                refine hih.frame (r := 0) ?_ fun out left hout => ?_
                · rw [toList_some, blocks_append, blocks_cons, blocks_nil]
                  abel
                · rw [add_zero]
                  simpa [texts] using hout
          · have hih := ih capacity expansions
              (strings ++ [⟨block, before ++ item ++ after⟩]) (by simp)
            refine hih.frame (r := 0) ?_ fun out left hout => ?_
            · rw [toList_some, blocks_append, blocks_cons, blocks_nil]
              abel
            · rw [add_zero]
              simpa [texts] using hout

/-- The expansions and their array, or nothing at all. -/
theorem owns_expandBraceIn (pattern : CString) :
    Owns 0 (expandBraceIn grants pattern) fun out left => out.Leaves grants pattern left := by
  have hfail {pre : Option ℕ} (hmet : ¬ Met grants) :
      Owns pre.toList (do
        free pre.toList
        pure (⟨-1, none, []⟩ : BraceOut)) fun out left => out.Leaves grants pattern left :=
    (owns_free pre.toList).step fun _ left hleft =>
      owns_pure ⟨hleft, fun h => absurd h (by decide), fun _ => ⟨rfl, rfl, fun h => absurd h hmet⟩⟩
  unfold expandBraceIn
  cases hopen : strchr pattern openBrace with
  | none =>
      refine owns_pure ⟨rfl, fun h => absurd h (lt_irrefl 0), fun _ => ⟨rfl, rfl, fun _ => ?_⟩⟩
      simp only [expandBrace, hopen]
  | some cut =>
      obtain ⟨before, braceStart⟩ := cut
      dsimp only
      cases hclose : strchr braceStart closeBrace with
      | none =>
          refine owns_pure ⟨rfl, fun h => absurd h (lt_irrefl 0), fun _ => ⟨rfl, rfl, fun _ => ?_⟩⟩
          simp only [expandBrace, hopen, hclose]
      | some cut =>
          obtain ⟨content, braceEnd⟩ := cut
          have hexpand : expandBrace pattern = (braceItems content.tail).map
              fun item => before ++ item ++ braceEnd.tail := by
            simp only [expandBrace, hopen, hclose]
          have hprefix : Owns 0 (mallocPrefix grants before) fun out left =>
              out.elim (left = 0 ∧ ¬ Met grants) fun pre => left = pre.toList := by
            unfold mallocPrefix
            split
            · exact owns_pure rfl
            · refine (owns_malloc _).step fun out left hout => ?_
              obtain ⟨rfl, hmet⟩ := hout
              cases out with
              | none => exact owns_pure ⟨rfl, fun hall => hmet (hall _) rfl⟩
              | some block => exact owns_pure rfl
          refine hprefix.step fun out left hout => ?_
          cases out with
          | none =>
              exact owns_pure ⟨hout.1, fun h => absurd h (by decide),
                fun _ => ⟨rfl, rfl, fun hall => absurd hall hout.2⟩⟩
          | some pre =>
              obtain rfl := hout
              refine (owns_malloc _).bind (zero_add _).symm fun out left hout => ?_
              obtain ⟨rfl, hmet⟩ := hout
              cases out with
              | none =>
                  rw [toList_none, zero_add]
                  exact hfail fun hall => hmet (hall _) rfl
              | some block =>
                  refine (owns_addExpansions hitem hgrow before braceEnd.tail
                    (block :: pre.toList) (braceItems content.tail) 0 none []
                    fun _ => rfl).frame (r := 0) ?_ fun out left hout => ?_
                  · rw [toList_none, blocks_nil, add_zero, add_zero, add_zero]
                    rfl
                  · obtain ⟨hleft, htexts, hret, hnone⟩ := hout
                    rw [add_zero]
                    have htexts' : texts out.strings = expandBrace pattern :=
                      htexts.trans hexpand.symm
                    refine ⟨hleft, fun h => ⟨htexts', hret.mp h⟩, fun h => ?_⟩
                    have hstrings : out.strings = [] := by
                      by_contra hne
                      exact h (hret.mpr hne)
                    refine ⟨hnone hstrings, hstrings, fun _ => ?_⟩
                    rw [← htexts', hstrings]
                    rfl

end Braces

/-- Every request of the list is met. -/
def ListGrants.Met (grants : ListGrants) : Prop :=
  ∀ n, grants.list n = true ∧ grants.grow n = true ∧ grants.text n = true

section Lists

variable {requests : ListGrants}

theorem owns_ensureCapacity (list : HeapList) (minCapacity : ℕ) :
    Owns list.held (list.ensureCapacity requests minCapacity) fun out left =>
      left = out.2.held ∧ out.2.strings = list.strings ∧
        (out.1 = false → out.2 = list ∧ ¬ requests.Met) := by
  unfold HeapList.ensureCapacity
  split
  · exact owns_pure ⟨rfl, rfl, fun h => absurd h.symm Bool.false_ne_true⟩
  · refine (owns_realloc requests.grow list.items).bind
      (r := {list.list} + blocks list.strings) ?_ fun out left hout => ?_
    · rw [HeapList.held]
      abel
    · obtain ⟨hnone, hsome, hmet⟩ := hout
      cases out with
      | none =>
          rw [hnone rfl]
          refine owns_pure ⟨?_, rfl, fun _ => ⟨rfl, fun hall => hmet (fun n => (hall n).2.1) rfl⟩⟩
          rw [HeapList.held]
          abel
      | some items =>
          rw [hsome _ rfl]
          refine owns_pure ⟨?_, rfl, fun h => absurd h.symm Bool.false_ne_true⟩
          rw [HeapList.held, toList_some]
          abel

theorem owns_create (initialCapacity : ℕ) :
    Owns 0 (HeapList.create requests initialCapacity) fun out left =>
      out.elim (left = 0 ∧ ¬ requests.Met) fun list => left = list.held ∧ list.strings = [] := by
  refine (owns_malloc _).step fun out left hout => ?_
  obtain ⟨rfl, hmet⟩ := hout
  cases out with
  | none => exact owns_pure ⟨rfl, fun hall => hmet (fun n => (hall n).1) rfl⟩
  | some block =>
      have hfresh : (({block} : Multiset ℕ)) = (HeapList.held ⟨block, none, 0, []⟩) := by
        simp [HeapList.held]
      dsimp only
      rw [toList_some, hfresh]
      split
      · refine (owns_ensureCapacity _ initialCapacity).step fun out left hout => ?_
        obtain ⟨complete, list⟩ := out
        obtain ⟨rfl, hstrings, hrefused⟩ := hout
        cases complete with
        | true => exact owns_pure ⟨rfl, hstrings⟩
        | false =>
            obtain ⟨rfl, hmet⟩ := hrefused rfl
            dsimp only
            rw [← hfresh]
            exact (owns_freeOne block).step fun _ left hleft => owns_pure ⟨hleft, hmet⟩
      · exact owns_pure ⟨rfl, rfl⟩

theorem owns_append (list : HeapList) (text : CString) :
    Owns list.held (list.append requests text) fun out left =>
      left = out.2.held ∧
        (out.1 = true → texts out.2.strings = texts list.strings ++ [text]) ∧
        (out.1 = false → out.2.strings = list.strings ∧ ¬ requests.Met) := by
  refine (owns_ensureCapacity list _).step fun out left hout => ?_
  obtain ⟨complete, list'⟩ := out
  obtain ⟨rfl, hstrings, hrefused⟩ := hout
  cases complete with
  | false =>
      exact owns_pure ⟨rfl, fun h => absurd h Bool.false_ne_true,
        fun _ => ⟨hstrings, (hrefused rfl).2⟩⟩
  | true =>
      refine (owns_malloc _).bind (zero_add _).symm fun out left hout => ?_
      obtain ⟨rfl, hmet⟩ := hout
      cases out with
      | none =>
          rw [toList_none, zero_add]
          exact owns_pure ⟨rfl, fun h => absurd h Bool.false_ne_true,
            fun _ => ⟨hstrings, fun hall => hmet (fun n => (hall n).2.2) rfl⟩⟩
      | some block =>
          refine owns_pure ⟨?_, fun _ => ?_, fun h => absurd h.symm Bool.false_ne_true⟩
          · simp only [HeapList.held, blocks_append, blocks_cons, blocks_nil, toList_some]
            abel
          · dsimp only at hstrings ⊢
            rw [texts_append, hstrings]
            rfl

theorem owns_releaseList (list : HeapList) :
    Owns list.held list.release fun _ left => left = 0 := by
  refine (owns_freeStrings list.strings).bind (add_comm _ _) fun _ left hleft => ?_
  rw [hleft, zero_add]
  refine (owns_free list.items.toList).bind (add_comm _ _) fun _ left hleft => ?_
  rw [hleft, zero_add]
  exact owns_freeOne list.list

end Lists

/-! ## Wildcards -/

section Wildcards

variable (env : HeapEnv)

theorem met_matchListGrants (hall : Met grants) : (matchListGrants grants).Met :=
  fun n => ⟨hall _ n, hall _ n, hall _ n⟩

/-- The items that are reported go into the list, as long as there is memory for them. -/
theorem owns_reportItems (patternDir filePattern : CString) (items : List CString)
    (list : HeapList) :
    Owns list.held (reportItems grants patternDir filePattern items list) fun out left =>
      left = out.2.held ∧ ∃ found,
        found <+: items.filterMap (wildcardCallback patternDir filePattern) ∧
        texts out.2.strings = texts list.strings ++ found ∧
        (Met grants →
          out.1 = true ∧ found = items.filterMap (wildcardCallback patternDir filePattern)) := by
  induction items generalizing list with
  | nil =>
      exact owns_pure ⟨rfl, [], List.prefix_rfl, (List.append_nil _).symm, fun _ => ⟨rfl, rfl⟩⟩
  | cons item items ih =>
      unfold reportItems
      cases hpath : wildcardCallback patternDir filePattern item with
      | none =>
          rw [List.filterMap_cons_none hpath]
          exact ih list
      | some path =>
          rw [List.filterMap_cons_some hpath]
          refine (owns_append list path).step fun out left hout => ?_
          obtain ⟨stored, list'⟩ := out
          obtain ⟨rfl, hstored, hrefused⟩ := hout
          cases stored with
          | false =>
              obtain ⟨hsame, hmet⟩ := hrefused rfl
              refine owns_pure ⟨rfl, [], List.nil_prefix, ?_,
                fun hall => absurd (met_matchListGrants hall) hmet⟩
              rw [hsame, List.append_nil]
          | true =>
              refine (ih list').mono fun out left hout => ?_
              obtain ⟨rfl, found, hfound, htexts, hmet⟩ := hout
              refine ⟨rfl, path :: found, (List.prefix_cons_inj path).mpr hfound, ?_,
                fun hall => ⟨(hmet hall).1, congrArg _ (hmet hall).2⟩⟩
              rw [htexts, hstored rfl, List.append_assoc]
              rfl

theorem owns_dupStrings (words : List CString) (copies : List HeapString) :
    Owns (blocks copies) (dupStrings grants words copies) fun out left =>
      out.elim (left = 0 ∧ ¬ Met grants) fun copies' =>
        left = blocks copies' ∧ texts copies' = texts copies ++ words := by
  induction words generalizing copies with
  | nil => exact owns_pure ⟨rfl, (List.append_nil _).symm⟩
  | cons text words ih =>
      refine (owns_malloc _).bind (zero_add _).symm fun out left hout => ?_
      obtain ⟨rfl, hmet⟩ := hout
      cases out with
      | none =>
          rw [toList_none, zero_add]
          exact (owns_freeStrings copies).step fun _ left hleft =>
            owns_pure ⟨hleft, fun hall => hmet (hall _) rfl⟩
      | some block =>
          refine (ih (copies ++ [⟨block, text⟩])).frame (r := 0) ?_ fun out left hout => ?_
          · simp only [blocks_append, blocks_cons, blocks_nil, toList_some]
            abel
          · rw [add_zero]
            simpa [texts] using hout

/-- What `expand_wildcard` leaves: the matches and their array, or nothing. The matches are some of
the `reported` files, and all that are `found` when every request is met. -/
structure MatchOut.Leaves (grants : Grants) (ret : ℤ) (found reported : List CString)
    (out : MatchOut) (left : Multiset ℕ) : Prop where
  held : left = out.array.toList + blocks out.strings
  array_eq_none : out.strings = [] → out.array = none
  failed : out.ret ≠ 0 → out.strings = []
  reported : texts out.strings <+: reported
  met : Met grants → out.ret = ret ∧ texts out.strings = found

/-- The matches have blocks of their own, and the list is gone. -/
theorem owns_copyMatches (list : HeapList) :
    Owns list.held (copyMatches grants list) fun out left =>
      out.Leaves grants 0 (texts list.strings) (texts list.strings) left := by
  have hfail (hmet : ¬ Met grants) : Owns list.held (do
      list.release
      pure (⟨-1, none, []⟩ : MatchOut)) fun out left =>
      out.Leaves grants 0 (texts list.strings) (texts list.strings) left :=
    (owns_releaseList list).step fun _ left hleft =>
      owns_pure ⟨hleft, fun _ => rfl, fun _ => rfl, List.nil_prefix, fun hall => absurd hall hmet⟩
  unfold copyMatches
  split
  · rename_i hpos
    refine (owns_malloc _).bind (zero_add _).symm fun out left hout => ?_
    obtain ⟨rfl, hmet⟩ := hout
    cases out with
    | none =>
        rw [toList_none, zero_add]
        exact hfail fun hall => hmet (hall _) rfl
    | some array =>
        refine (owns_dupStrings (list.strings.map HeapString.text) []).bind (zero_add _).symm
          fun out left hout => ?_
        cases out with
        | none =>
            rw [hout.1, zero_add]
            refine (owns_freeOne array).bind rfl fun _ left hleft => ?_
            rw [hleft, zero_add]
            exact hfail hout.2
        | some copies =>
            obtain ⟨rfl, htexts⟩ := hout
            have hcopied : texts copies = texts list.strings := htexts
            refine (owns_releaseList list).bind
              (r := {array} + blocks copies) ?_ fun _ left hleft => ?_
            · rw [toList_some]
              abel
            · rw [hleft, zero_add]
              refine owns_pure ⟨rfl, fun h => ?_, fun h => absurd rfl h, hcopied ▸ List.prefix_rfl,
                fun _ => ⟨rfl, hcopied⟩⟩
              have hnil : list.strings.map HeapString.text = [] := by
                rw [show copies = [] from h] at hcopied
                exact hcopied.symm
              rw [List.map_eq_nil_iff.mp hnil] at hpos
              exact absurd hpos (lt_irrefl 0)
  · rename_i hzero
    refine (owns_releaseList list).step fun _ left hleft =>
      owns_pure ⟨hleft, fun _ => rfl, fun _ => rfl, List.nil_prefix, fun _ => ⟨rfl, ?_⟩⟩
    rw [List.eq_nil_of_length_eq_zero (Nat.eq_zero_of_not_pos hzero)]

/-- The files that the enumeration function reports to `wildcard_callback` and that match. -/
def reportedFiles (env : ArgsEnv) (pattern : CString) : List CString :=
  env.enumFunc.elim [] fun enumFunc =>
    (enumFunc (wildcardCall env pattern)).items.filterMap
      (wildcardCallback (patternParts pattern).1 (patternParts pattern).2)

/-- The files that match, with an array for them, or nothing at all. -/
theorem owns_expandWildcardIn (pattern : CString) :
    Owns 0 (expandWildcardIn grants env pattern) fun out left =>
      out.Leaves grants (expandWildcard env.env pattern).ret
        (expandWildcard env.env pattern).matchArray (reportedFiles env.env pattern) left := by
  unfold expandWildcardIn
  cases henum : env.env.enumFunc with
  | none =>
      refine owns_pure ⟨rfl, fun _ => rfl, fun _ => rfl, List.nil_prefix, fun _ => ?_⟩
      simp [expandWildcard, henum, texts]
  | some enumFunc =>
      refine (owns_create 8).step fun out left hout => ?_
      cases out with
      | none =>
          exact owns_pure ⟨hout.1, fun _ => rfl, fun _ => rfl, List.nil_prefix,
            fun hall => absurd (met_matchListGrants hall) hout.2⟩
      | some list =>
          obtain ⟨rfl, hnil⟩ := hout
          refine (owns_reportItems _ _ _ list).step fun out left hout => ?_
          obtain ⟨complete, list'⟩ := out
          obtain ⟨rfl, found, hfound, htexts, hmet⟩ := hout
          rw [hnil, show texts [] = [] from rfl, List.nil_append] at htexts
          dsimp only at htexts hmet ⊢
          by_cases hstatus : (if complete = true then
              (enumFunc (wildcardCall env.env pattern)).status
            else env.cancelled (wildcardCall env.env pattern)) = 0
          · rw [if_pos hstatus]
            refine (owns_copyMatches list').mono fun out left hout => ?_
            obtain ⟨hleft, hnone, hret, hreported, hcopied⟩ := hout
            refine ⟨hleft, hnone, hret, ?_, fun hall => ?_⟩
            · rw [reportedFiles, henum]
              exact hreported.trans (htexts ▸ hfound)
            · obtain ⟨hcomplete, rfl⟩ := hmet hall
              have hzero : (enumFunc (wildcardCall env.env pattern)).status = 0 := by
                rwa [if_pos hcomplete] at hstatus
              have hpure : expandWildcard env.env pattern = ⟨0,
                  (enumFunc (wildcardCall env.env pattern)).items.filterMap
                    (wildcardCallback (patternParts pattern).1 (patternParts pattern).2),
                  [wildcardCall env.env pattern]⟩ := by
                simp only [expandWildcard, henum, if_pos hzero]
              rw [hpure]
              exact ⟨(hcopied hall).1, (hcopied hall).2.trans htexts⟩
          · rw [if_neg hstatus]
            refine (owns_releaseList list').step fun _ left hleft =>
              owns_pure ⟨hleft, fun _ => rfl, fun _ => rfl, List.nil_prefix, fun hall => ?_⟩
            have hnonzero : (enumFunc (wildcardCall env.env pattern)).status ≠ 0 := by
              rwa [if_pos (hmet hall).1] at hstatus
            simp [expandWildcard, henum, hnonzero, texts]

end Wildcards

/-- What `args_parse` has handed over. -/
def argvHeld (argv : Option HeapArray) : Multiset ℕ := argv.elim 0 HeapArray.held

/-- `args_free` frees everything, if `argc` is the number of the arguments. -/
theorem owns_argsFreeIn {argv : Option HeapArray}
    (hfits : ∀ args, argv = some args → (args.strings.items.length : ℤ) ≤ intMax) :
    Owns (argvHeld argv) (argsFreeIn argv) fun _ left => left = 0 := by
  cases argv with
  | none => exact owns_pure rfl
  | some args =>
      unfold argsFreeIn
      dsimp only
      rw [toInt_eq_self (hfits args rfl), Int.toNat_natCast, List.take_length]
      exact owns_releaseArray args

theorem owns_addToList (words : List CString) (list : HeapList) :
    Owns list.held (addToList grants words list) fun out left =>
      left = out.2.held ∧ (out.1 = true → texts out.2.strings = texts list.strings ++ words) ∧
        (out.1 = false → ¬ Met grants) := by
  induction words generalizing list with
  | nil =>
      exact owns_pure ⟨rfl, fun _ => (List.append_nil _).symm,
        fun h => absurd h.symm Bool.false_ne_true⟩
  | cons text words ih =>
      refine (owns_append list text).step fun out left hout => ?_
      obtain ⟨stored, list'⟩ := out
      obtain ⟨rfl, hstored, hrefused⟩ := hout
      cases stored with
      | false =>
          refine owns_pure ⟨rfl, fun h => absurd h Bool.false_ne_true, fun _ hall => ?_⟩
          exact (hrefused rfl).2 fun n => ⟨hall _ n, hall _ n, hall _ n⟩
      | true =>
          refine (ih list').mono fun out left hout => ⟨hout.1, fun hcomplete => ?_, hout.2.2⟩
          rw [hout.2.1 hcomplete, hstored rfl, List.append_assoc]
          rfl

/-- The list has copies, and the arguments are given back. -/
theorem owns_argsToList {argv : Option HeapArray}
    (hfits : ∀ args, argv = some args → (args.strings.items.length : ℤ) ≤ intMax) :
    Owns (argvHeld argv) (argsToList grants argv) fun out left =>
      left = out.elim 0 HeapList.held ∧
        (∀ list, out = some list → argv.map HeapArray.words = some (texts list.strings)) ∧
        (Met grants → out = none → argv = none) := by
  cases argv with
  | none => exact owns_pure ⟨rfl, fun _ h => absurd h.symm (Option.some_ne_none _), fun _ _ => rfl⟩
  | some args =>
      have hfree := owns_argsFreeIn hfits
      unfold argsToList
      refine (owns_create _).bind (zero_add _).symm fun out left hout => ?_
      cases out with
      | none =>
          obtain ⟨rfl, hrefused⟩ := hout
          rw [zero_add]
          refine hfree.step fun _ left hleft =>
            owns_pure ⟨hleft, fun _ h => absurd h.symm (Option.some_ne_none _), fun hall => ?_⟩
          exact absurd (fun n => ⟨hall _ n, hall _ n, hall _ n⟩) hrefused
      | some list =>
          obtain ⟨rfl, hnil⟩ := hout
          dsimp only
          rw [toInt_eq_self (hfits args rfl), Int.toNat_natCast, List.take_length]
          refine (owns_addToList _ list).bind rfl fun out left hout => ?_
          obtain ⟨complete, list'⟩ := out
          obtain ⟨rfl, hcomplete, hrefused⟩ := hout
          cases complete with
          | true =>
              refine hfree.bind (add_comm _ _) fun _ left hleft => ?_
              rw [hleft, zero_add]
              refine owns_pure ⟨rfl, fun list hlist => ?_,
                fun _ h => absurd h (Option.some_ne_none _)⟩
              obtain rfl := Option.some.inj hlist
              rw [hcomplete rfl, hnil]
              rfl
          | false =>
              refine (owns_releaseList list').bind rfl fun _ left hleft => ?_
              rw [hleft, zero_add]
              exact hfree.step fun _ left hleft =>
                owns_pure ⟨hleft, fun _ h => absurd h.symm (Option.some_ne_none _),
                  fun hall => absurd hall (hrefused rfl)⟩

end Owned

end BasC
