/-
# What takes the place of a raw word

The second pass of `args_parse` with its memory. Of each raw word it is said what has become of it:
the word is an argument itself, or the files that its wildcards match are arguments, or the
expansions of its braces are, each itself or with files in its place. These strings, one place
behind the other, are the array. The only strings that are lost are raw words in whose place files
have been put.
-/

import BasC.Cli.ArgsOwnership

namespace BasC

open CChar Lib

/-- Files take the place of a text. -/
def isMatched (env : ArgsEnv) (text : CString) : Bool :=
  containsWildcard text && decide (0 < (wildcardMatches env text).length)

/-- Files take the place of the raw word itself. -/
def isReplaced (env : ArgsEnv) (word : CString) : Bool :=
  (expandBrace word).isEmpty && isMatched env word

/-- What has become of a text: it is an argument, or files that it matches are. -/
inductive TextPlace
  | kept (text : HeapString)
  | matched (text : HeapString) (files : List HeapString)

/-- What has become of a raw word: the same as of any text, unless its braces have been
expanded. -/
inductive WordPlace
  | plain (place : TextPlace)
  | braces (word : HeapString) (expansions : List TextPlace)

namespace TextPlace

/-- The text itself. -/
def text : TextPlace → HeapString
  | .kept text => text
  | .matched text _ => text

/-- The strings that have gone into the array. -/
def stored : TextPlace → List HeapString
  | .kept text => [text]
  | .matched _ files => files

/-- The text, if it is in no array any longer. -/
def lost : TextPlace → List HeapString
  | .kept _ => []
  | .matched text _ => [text]

/-- Only for a wildcard there are files, and these are files that have been reported. When all
requests are met, they are all that match. -/
def Fits (grants : Grants) (env : ArgsEnv) : TextPlace → Prop
  | .kept text => Met grants → isMatched env text.text = false
  | .matched text files =>
      containsWildcard text.text = true ∧ files ≠ [] ∧
        texts files <+: reportedFiles env text.text ∧
        (Met grants → texts files = wildcardMatches env text.text)

end TextPlace

namespace WordPlace

/-- The raw word. -/
def word : WordPlace → HeapString
  | .plain place => place.text
  | .braces word _ => word

@[simp]
theorem word_plain (place : TextPlace) : (plain place).word = place.text := rfl

@[simp]
theorem word_braces (word : HeapString) (expansions : List TextPlace) :
    (braces word expansions).word = word := rfl

/-- The strings that have gone into the array. -/
def stored : WordPlace → List HeapString
  | .plain place => place.stored
  | .braces _ expansions => expansions.flatMap TextPlace.stored

/-- The raw word, if nothing has freed it and it is in no array any longer. -/
def lost : WordPlace → List HeapString
  | .plain place => place.lost
  | .braces _ _ => []

/-- The expansions are those of the braces, and there are some. When all requests are met, a word
that has expansions has been expanded. -/
def Fits (grants : Grants) (env : ArgsEnv) : WordPlace → Prop
  | .plain place => place.Fits grants env ∧ (Met grants → expandBrace place.text.text = [])
  | .braces word expansions =>
      expansions ≠ [] ∧ texts (expansions.map TextPlace.text) = expandBrace word.text ∧
        ∀ place ∈ expansions, place.Fits grants env

end WordPlace

section Places

variable {grants : Grants} {env : ArgsEnv}

theorem TextPlace.Fits.isMatched {text : HeapString} {files : List HeapString}
    (hfits : (TextPlace.matched text files).Fits grants env) (hall : Met grants) :
    isMatched env text.text = true := by
  obtain ⟨hwild, hne, -, hmet⟩ := hfits
  rw [BasC.isMatched, hwild, Bool.true_and, decide_eq_true_eq, ← hmet hall, texts, List.length_map]
  exact List.length_pos_iff.mpr hne

/-- With enough memory the text contributes what it does without memory. -/
theorem TextPlace.Fits.texts_stored {place : TextPlace} (hfits : place.Fits grants env)
    (hall : Met grants) : texts place.stored = wildcardWords env place.text.text := by
  have hwords (text : CString) : wildcardWords env text =
      if BasC.isMatched env text then wildcardMatches env text else [text] := rfl
  cases place with
  | kept text => exact ((hwords text.text).trans (if_neg (by simp [hfits hall]))).symm
  | matched text files =>
      exact (hfits.2.2.2 hall).trans
        ((hwords text.text).trans (if_pos (hfits.isMatched hall))).symm

/-- A word with expansions has contributed these. -/
theorem WordPlace.Fits.expandBrace_ne_nil {word : HeapString} {expansions : List TextPlace}
    (hfits : (WordPlace.braces word expansions).Fits grants env) : expandBrace word.text ≠ [] := by
  rw [← hfits.2.1, texts]
  simpa using hfits.1

theorem WordPlace.Fits.texts_stored {place : WordPlace} (hfits : place.Fits grants env)
    (hall : Met grants) : texts place.stored = expandedWords env place.word.text := by
  rw [expandedWords, alternatives_eq]
  cases place with
  | plain place =>
      rw [word_plain, if_pos (hfits.2 hall), List.flatMap_singleton]
      exact hfits.1.texts_stored hall
  | braces word expansions =>
      rw [word_braces, if_neg hfits.expandBrace_ne_nil]
      change texts (expansions.flatMap TextPlace.stored) =
        (expandBrace word.text).flatMap (wildcardWords env)
      obtain ⟨-, htexts, hexpansions⟩ := hfits
      rw [← htexts, texts, texts, List.map_flatMap, List.map_map, List.flatMap_map]
      exact List.flatMap_congr fun place hplace => (hexpansions place hplace).texts_stored hall

/-- What is lost is the raw word in its block, and it has a wildcard. -/
theorem WordPlace.Fits.lost_sublist {place : WordPlace} (hfits : place.Fits grants env) :
    place.lost.Sublist ([place.word].filter fun word => containsWildcard word.text) := by
  cases place with
  | plain place =>
      cases place with
      | kept text => exact List.nil_sublist _
      | matched text files =>
          change [text].Sublist ([text].filter fun word => containsWildcard word.text)
          rw [List.filter_singleton, hfits.1.1]
          exact List.Sublist.refl _
  | braces word expansions => exact List.nil_sublist _

/-- With enough memory a word is lost exactly if files take its place. -/
theorem WordPlace.Fits.texts_lost {place : WordPlace} (hfits : place.Fits grants env)
    (hall : Met grants) : texts place.lost = [place.word.text].filter (isReplaced env) := by
  cases place with
  | plain place =>
      obtain ⟨hplace, hnone⟩ := hfits
      cases place with
      | kept text =>
          change [] = [text.text].filter (isReplaced env)
          rw [List.filter_singleton, isReplaced, hplace hall, Bool.and_false]
          rfl
      | matched text files =>
          change [text.text] = [text.text].filter (isReplaced env)
          rw [List.filter_singleton, isReplaced, hplace.isMatched hall, Bool.and_true,
            show expandBrace text.text = [] from hnone hall]
          rfl
  | braces word expansions =>
      change [] = [word.text].filter (isReplaced env)
      rw [List.filter_singleton, isReplaced,
        List.isEmpty_eq_false_iff.mpr hfits.expandBrace_ne_nil]
      rfl

variable {places : List WordPlace} (hfits : ∀ place ∈ places, place.Fits grants env)

include hfits

theorem texts_flatMap_stored (hall : Met grants) :
    texts (places.flatMap WordPlace.stored) =
      (texts (places.map WordPlace.word)).flatMap (expandedWords env) := by
  rw [texts, texts, List.map_flatMap, List.map_map, List.flatMap_map]
  exact List.flatMap_congr fun place hplace => (hfits place hplace).texts_stored hall

theorem texts_flatMap_lost (hall : Met grants) :
    texts (places.flatMap WordPlace.lost) =
      (texts (places.map WordPlace.word)).filter (isReplaced env) := by
  induction places with
  | nil => rfl
  | cons place places ih =>
      have hplace := (hfits place List.mem_cons_self).texts_lost hall
      have hplaces := ih fun place hplace => hfits place (List.mem_cons_of_mem _ hplace)
      rw [List.flatMap_cons, texts_append, hplace, hplaces, ← List.filter_append]
      rfl

theorem flatMap_lost_sublist :
    (places.flatMap WordPlace.lost).Sublist
      ((places.map WordPlace.word).filter fun word => containsWildcard word.text) := by
  induction places with
  | nil => exact List.nil_sublist _
  | cons place places ih =>
      have hplace := (hfits place List.mem_cons_self).lost_sublist
      have hplaces := ih fun place hplace => hfits place (List.mem_cons_of_mem _ hplace)
      have happend := hplace.append hplaces
      rwa [← List.filter_append] at happend

end Places

/-! ## The second pass -/

/-- A step of the second pass: these strings are behind the others in the array now, and these are
in no array any longer. -/
structure HeapArray.Adds (args : HeapArray) (stored lost : List HeapString)
    (out : Bool × HeapArray) (left : Multiset ℕ) : Prop where
  added : out.1 = true
  items : out.2.strings.items = args.strings.items ++ stored
  held : left = out.2.held + blocks lost

/-- A step behind a step. -/
theorem HeapArray.Adds.trans {args args' : HeapArray} {stored stored' lost' : List HeapString}
    {out : Bool × HeapArray} {left : Multiset ℕ} (lost : List HeapString)
    (hitems : args'.strings.items = args.strings.items ++ stored)
    (hadds : args'.Adds stored' lost' out left) :
    args.Adds (stored ++ stored') (lost ++ lost') out (left + blocks lost) := by
  obtain ⟨hadded, hitems', rfl⟩ := hadds
  refine ⟨hadded, ?_, ?_⟩
  · rw [hitems', hitems, List.append_assoc]
  · rw [blocks_append]
    abel

/-- When every request is met, the matches of a text are the files it matches, and none when
`expand_wildcard` fails. -/
theorem MatchOut.Leaves.texts_eq_wildcardMatches {grants : Grants} {env : ArgsEnv}
    {pattern : CString} {reported : List CString} {wildcard : MatchOut} {left : Multiset ℕ}
    (hleaves : wildcard.Leaves grants (expandWildcard env pattern).ret
      (expandWildcard env pattern).matchArray reported left) (hall : Met grants) :
    texts wildcard.strings = wildcardMatches env pattern := by
  obtain ⟨hret, htexts⟩ := hleaves.met hall
  rw [wildcardMatches]
  split
  · exact htexts
  · rename_i hpure
    rw [hleaves.failed (hret ▸ hpure)]
    rfl

section SecondPass

variable {grants : Grants} (env : HeapEnv) (hstore : ∀ n, grants .argsGrow n)

include hstore

/-- A string that the array takes over. -/
theorem owns_pushArg (args : HeapArray) (arg : HeapString) :
    Owns (args.held + {arg.block}) (args.push (grants .argsGrow) arg) fun out left =>
      args.Adds [arg] [] out left := by
  refine (owns_push (grants .argsGrow) args arg).frame rfl fun out left hout => ?_
  obtain ⟨stored, args'⟩ := out
  cases stored with
  | false => exact absurd hstore (hout.2 rfl).2.2
  | true =>
      obtain ⟨hheld, hitems⟩ := hout.1 rfl
      exact ⟨rfl, hitems, hheld.trans (add_zero _).symm⟩

theorem owns_storeAll (strings : List HeapString) (args : HeapArray) :
    Owns (args.held + blocks strings) (storeAll grants strings args) fun out left =>
      args.Adds strings [] out left := by
  induction strings generalizing args with
  | nil => exact owns_pure ⟨rfl, (List.append_nil _).symm, rfl⟩
  | cons arg strings ih =>
      refine (owns_pushArg hstore args arg).bind (r := blocks strings) ?_ fun out left hout => ?_
      · rw [blocks_cons, add_assoc]
      · obtain ⟨stored, args'⟩ := out
        obtain ⟨rfl, hitems, rfl⟩ := hout
        refine (ih args').frame (r := 0) (by simp) fun out left hout => ?_
        exact .trans [] hitems hout

/-- What `addText` does with a text and the files that take its place. -/
theorem owns_storeMatches (freesText : Bool) (args : HeapArray) {arg : HeapString}
    {wildcard : MatchOut} (hfits : (TextPlace.matched arg wildcard.strings).Fits grants env.env) :
    Owns (args.held + {arg.block} + (wildcard.array.toList + blocks wildcard.strings)) (do
        match ← storeAll grants wildcard.strings args with
        | (true, args) => do
            free wildcard.array.toList
            free (if freesText then [arg.block] else [])
            pure (true, args)
        | (false, args) => do
            free (wildcard.strings.map HeapString.block)
            free wildcard.array.toList
            pure (false, args)) fun out left =>
      ∃ place : TextPlace, place.text = arg ∧ place.Fits grants env.env ∧
        args.Adds place.stored (if freesText then [] else place.lost) out left := by
  refine (owns_storeAll hstore wildcard.strings args).bind
    (r := wildcard.array.toList + {arg.block}) (by abel) fun out left hout => ?_
  obtain ⟨stored, args'⟩ := out
  obtain ⟨rfl, hitems, rfl⟩ := hout
  refine (owns_free wildcard.array.toList).bind
    (r := args'.held + {arg.block}) (by simp [blocks]; abel) fun _ left hleft => ?_
  rw [hleft, zero_add]
  cases freesText with
  | true =>
      refine (owns_freeOne arg.block).bind (add_comm _ _) fun _ left hleft => ?_
      rw [hleft, zero_add]
      exact owns_pure ⟨_, rfl, hfits, rfl, hitems, (add_zero _).symm⟩
  | false =>
      refine (owns_free []).bind (zero_add _).symm fun _ left hleft => ?_
      rw [hleft, zero_add]
      refine owns_pure ⟨_, rfl, hfits, rfl, hitems, ?_⟩
      change _ = args'.held + blocks [arg]
      rw [blocks_cons, blocks_nil, add_zero]

/-- A text is stored, or the files that it matches are; then an expansion of a brace is freed, and
a raw word is lost. -/
theorem owns_addText (freesText : Bool) (args : HeapArray) (arg : HeapString) :
    Owns (args.held + {arg.block}) (addText grants env freesText args arg) fun out left =>
      ∃ place : TextPlace, place.text = arg ∧ place.Fits grants env.env ∧
        args.Adds place.stored (if freesText then [] else place.lost) out left := by
  -- The text itself is stored.
  have hkept (hnone : Met grants → isMatched env.env arg.text = false) :
      Owns (args.held + {arg.block}) (args.push (grants .argsGrow) arg) fun out left =>
        ∃ place : TextPlace, place.text = arg ∧ place.Fits grants env.env ∧
          args.Adds place.stored (if freesText then [] else place.lost) out left := by
    refine (owns_pushArg hstore args arg).mono fun out left hout => ?_
    refine ⟨.kept arg, rfl, hnone, ?_⟩
    cases freesText <;> exact hout
  unfold addText
  by_cases hwild : containsWildcard arg.text = true
  · rw [if_pos hwild]
    refine (owns_expandWildcardIn env arg.text).bind (zero_add _).symm fun wildcard left hout => ?_
    have hmatches := hout.texts_eq_wildcardMatches
    have hfailed := hout.failed
    obtain ⟨rfl, hnone, -, hreported, -⟩ := hout
    have hunmatched (hnil : wildcard.strings = []) :
        Owns (wildcard.array.toList + blocks wildcard.strings + (args.held + {arg.block}))
          (args.push (grants .argsGrow) arg) fun out left =>
          ∃ place : TextPlace, place.text = arg ∧ place.Fits grants env.env ∧
            args.Adds place.stored (if freesText then [] else place.lost) out left := by
      rw [hnone hnil, hnil]
      refine (zero_add (args.held + {arg.block})).symm ▸ hkept fun hall => ?_
      rw [isMatched, ← hmatches hall, hnil]
      exact Bool.and_false _
    by_cases hret : wildcard.ret = 0
    · rw [if_pos hret]
      by_cases hpos : 0 < wildcard.strings.length
      · rw [if_pos hpos, add_comm]
        exact owns_storeMatches env hstore freesText args
          ⟨hwild, List.length_pos_iff.mp hpos, hreported, hmatches⟩
      · rw [if_neg hpos]
        exact hunmatched (List.eq_nil_of_length_eq_zero (Nat.eq_zero_of_not_pos hpos))
    · rw [if_neg hret]
      exact hunmatched (hfailed hret)
  · rw [if_neg hwild]
    exact hkept fun _ => by rw [isMatched, Bool.eq_false_iff.mpr hwild, Bool.false_and]

/-- The expansions of a brace leave nothing behind. -/
theorem owns_addTexts (strings : List HeapString) (args : HeapArray) :
    Owns (args.held + blocks strings) (addTexts grants env strings args) fun out left =>
      ∃ places : List TextPlace, places.map TextPlace.text = strings ∧
        (∀ place ∈ places, place.Fits grants env.env) ∧
        args.Adds (places.flatMap TextPlace.stored) [] out left := by
  induction strings generalizing args with
  | nil =>
      refine owns_pure ⟨[], rfl, fun _ h => absurd h List.not_mem_nil, rfl, ?_, rfl⟩
      exact (List.append_nil _).symm
  | cons arg strings ih =>
      refine (owns_addText env hstore true args arg).bind (r := blocks strings) ?_
        fun out left hout => ?_
      · rw [blocks_cons, add_assoc]
      · obtain ⟨stored, args'⟩ := out
        obtain ⟨place, rfl, hplace, rfl, hitems, rfl⟩ := hout
        refine (ih args').frame (r := 0) (by simp) fun out left hout => ?_
        obtain ⟨places, rfl, hplaces, hadds⟩ := hout
        exact ⟨place :: places, rfl, List.forall_mem_cons.mpr ⟨hplace, hplaces⟩,
          .trans [] hitems hadds⟩

variable (hitem : ∀ n, grants .braceItem n) (hgrow : ∀ n, grants .braceGrow n)

include hitem hgrow

/-- One raw word. -/
theorem owns_addArgIn (args : HeapArray) (arg : HeapString) :
    Owns (args.held + {arg.block}) (addArgIn grants env args arg) fun out left =>
      ∃ place : WordPlace, place.word = arg ∧ place.Fits grants env.env ∧
        args.Adds place.stored place.lost out left := by
  -- There is no brace to expand.
  have hplain (hnone : Met grants → expandBrace arg.text = []) :
      Owns (args.held + {arg.block}) (addText grants env false args arg) fun out left =>
        ∃ place : WordPlace, place.word = arg ∧ place.Fits grants env.env ∧
          args.Adds place.stored place.lost out left := by
    refine (owns_addText env hstore false args arg).mono fun out left hout => ?_
    obtain ⟨place, rfl, hplace, hadds⟩ := hout
    exact ⟨.plain place, rfl, ⟨hplace, hnone⟩, hadds⟩
  unfold addArgIn
  by_cases hbrace : containsBrace arg.text = true
  · rw [if_pos hbrace]
    refine (owns_expandBraceIn hitem hgrow arg.text).bind (zero_add _).symm
      fun brace left hout => ?_
    obtain ⟨rfl, hexpanded, hkept⟩ := hout
    by_cases hret : 0 < brace.ret
    · rw [if_pos hret]
      obtain ⟨htexts, hne⟩ := hexpanded hret
      refine (owns_addTexts env hstore brace.strings args).bind
        (r := brace.expansions.toList + {arg.block}) (by abel) fun out left hout => ?_
      obtain ⟨stored, args'⟩ := out
      obtain ⟨places, hplaces, hfits, rfl, hitems, rfl⟩ := hout
      refine (owns_free brace.expansions.toList).bind
        (r := args'.held + {arg.block}) (by simp [blocks]; abel) fun _ left hleft => ?_
      rw [hleft, zero_add]
      refine (owns_freeOne arg.block).bind (add_comm _ _) fun _ left hleft => ?_
      rw [hleft, zero_add]
      refine owns_pure ⟨.braces arg places, rfl, ⟨fun hnil => hne ?_, ?_, hfits⟩, rfl, hitems,
        (add_zero _).symm⟩
      · rw [← hplaces, hnil]
        rfl
      · rw [hplaces, htexts]
    · rw [if_neg hret]
      obtain ⟨hnone, hnil, hmet⟩ := hkept hret
      rw [hnone, hnil]
      refine (owns_free []).bind (r := args.held + {arg.block}) (by simp) fun _ left hleft => ?_
      rw [hleft, zero_add]
      refine (owns_free []).bind (zero_add _).symm fun _ left hleft => ?_
      rw [hleft, zero_add]
      exact hplain hmet
  · rw [if_neg hbrace]
    exact hplain fun _ =>
      expandBrace_eq_nil_of_not_containsBrace (Bool.eq_false_iff.mpr hbrace)

/-- All raw words. -/
theorem owns_secondPassIn (rawBlock : ℕ) (words : List HeapString) (args : HeapArray) :
    Owns ({rawBlock} + blocks words + args.held) (secondPassIn grants env rawBlock words args)
      fun out left => ∃ args' : HeapArray, ∃ places : List WordPlace, out = some args' ∧
        places.map WordPlace.word = words ∧ (∀ place ∈ places, place.Fits grants env.env) ∧
        args.Adds (places.flatMap WordPlace.stored) (places.flatMap WordPlace.lost) (true, args')
          left := by
  induction words generalizing args with
  | nil =>
      refine (owns_freeOne rawBlock).bind (r := args.held) (by simp) fun _ left hleft => ?_
      rw [hleft, zero_add]
      exact owns_pure ⟨args, [], rfl, rfl, fun _ h => absurd h List.not_mem_nil, rfl,
        (List.append_nil _).symm, (add_zero _).symm⟩
  | cons arg words ih =>
      refine (owns_addArgIn env hstore hitem hgrow args arg).bind
        (r := {rawBlock} + blocks words) ?_ fun out left hout => ?_
      · rw [blocks_cons]
        abel
      · obtain ⟨stored, args'⟩ := out
        obtain ⟨place, rfl, hplace, rfl, hitems, rfl⟩ := hout
        refine (ih args').frame (r := blocks place.lost) (by abel) fun out left hout => ?_
        obtain ⟨last, places, rfl, rfl, hplaces, hadds⟩ := hout
        exact ⟨last, place :: places, rfl, rfl, List.forall_mem_cons.mpr ⟨hplace, hplaces⟩,
          .trans place.lost hitems hadds⟩

end SecondPass

/-! ## The whole function -/

section Calls

variable {grants : Grants}

/-- The words of a line before anything is expanded. -/
def rawWords (line : CString) : List CString := (argLexicon.split line).getD []

theorem owns_rawArgsIn (line : CString) :
    Owns 0 (rawArgsIn grants line) fun out left =>
      out.elim (left = 0 ∧ (Met grants → argLexicon.split line = none)) fun raw =>
        left = {raw.1} + raw.2.held ∧ argLexicon.split line = some raw.2.words := by
  refine (owns_malloc _).step fun out left hout => ?_
  obtain ⟨rfl, hmet⟩ := hout
  cases out with
  | none => exact owns_pure ⟨rfl, fun hall => absurd rfl (hmet (hall _))⟩
  | some block =>
      refine (owns_malloc _).bind (zero_add _).symm fun out left hout => ?_
      obtain ⟨rfl, hmet⟩ := hout
      cases out with
      | none =>
          rw [toList_none, zero_add]
          exact (owns_freeOne block).step fun _ left hleft =>
            owns_pure ⟨hleft, fun hall => absurd rfl (hmet (hall _))⟩
      | some rawBlock =>
          refine (owns_rawArgsLoopIn line.length line (.fresh rawBlock) argVector rfl
            le_rfl).bind (r := {block}) ?_ fun out left hout => ?_
          · simp [HeapArray.held, HeapArray.fresh]
          · have hsplit := rawArgs_eq line
            rw [rawArgs] at hsplit
            cases out with
            | none =>
                obtain ⟨rfl, hnone⟩ := hout
                rw [zero_add]
                refine (owns_freeOne block).step fun _ left hleft =>
                  owns_pure ⟨hleft, fun hall => ?_⟩
                rw [← hsplit, hnone hall]
                rfl
            | some raw =>
                obtain ⟨rfl, hraw⟩ := hout
                exact owns_pure ⟨add_comm _ _, hsplit.symm.trans hraw⟩

theorem owns_terminate (args : HeapArray) :
    Owns args.held (terminate grants args) fun out left =>
      out.elim (left = 0 ∧ ¬ Met grants) fun args' =>
        left = args'.held ∧ args'.strings = args.strings := by
  unfold terminate
  split
  · refine (owns_realloc _ (some args.block)).bind rfl fun out left hout => ?_
    obtain ⟨hnone, hsome, hmet⟩ := hout
    cases out with
    | none =>
        rw [hnone rfl]
        exact (owns_releaseArray args).step fun _ left hleft =>
          owns_pure ⟨hleft, fun hall => hmet (hall _) rfl⟩
    | some block =>
        rw [hsome _ rfl]
        exact owns_pure ⟨rfl, rfl⟩
  · exact owns_pure ⟨rfl, rfl⟩

/-- The raw words that the second pass gets, each in its block, and none if `args_parse` fails
before it. -/
def rawStrings (grants : Grants) (line : CString) : List HeapString :=
  (rawArgsIn grants line .empty).1.elim [] fun raw => raw.2.strings.items

/-- The raw words of a line, each with what has become of it when `args_parse` returns. The
arguments are what has been stored, one place behind the other, and besides the arguments and their
array nothing is held but the raw words in whose place files have been put. -/
structure ArgsPlaces (grants : Grants) (env : HeapEnv) (line : CString)
    (places : List WordPlace) : Prop where
  words : places.map WordPlace.word = rawStrings grants line
  texts_words : (rawArgsIn grants line .empty).1.isSome = true →
    texts (places.map WordPlace.word) = rawWords line
  fits : ∀ place ∈ places, place.Fits grants env.env
  args : ∀ args, (argsParseIn grants env line .empty).1 = some args →
    args.strings.items = places.flatMap WordPlace.stored
  held : (argsParseIn grants env line .empty).2.ledger.Holds
    (argvHeld (argsParseIn grants env line .empty).1 + blocks (places.flatMap WordPlace.lost))

variable (hstore : ∀ n, grants .argsGrow n) (hitem : ∀ n, grants .braceItem n)
  (hgrow : ∀ n, grants .braceGrow n) (env : HeapEnv) (line : CString)

include hstore hitem hgrow

omit hstore hitem hgrow in
/-- `args_parse` has its raw words, or it has failed. -/
theorem argsParseIn_eq :
    argsParseIn grants env line .empty =
      (rawArgsIn grants line .empty).1.elim (none, (rawArgsIn grants line .empty).2) fun raw =>
        expandArgsIn grants env raw.1 raw.2 (rawArgsIn grants line .empty).2 := by
  have hbind {α β : Type} (m : Owning α) (f : α → Owning β) (heap : Heap) :
      (m >>= f) heap = f (m heap).1 (m heap).2 := rfl
  rw [argsParseIn, hbind]
  cases rawArgsIn grants line .empty with
  | mk out heap => cases out <;> rfl

theorem owns_expandArgsIn (block : ℕ) (raw : HeapArray) :
    Owns ({block} + raw.held) (expandArgsIn grants env block raw) fun out left =>
      ∃ places : List WordPlace, places.map WordPlace.word = raw.strings.items ∧
        (∀ place ∈ places, place.Fits grants env.env) ∧
        (∀ args, out = some args → args.strings.items = places.flatMap WordPlace.stored) ∧
        left = argvHeld out + blocks (places.flatMap WordPlace.lost) ∧
        (Met grants → out ≠ none) := by
  refine (owns_secondPassIn env hstore hitem hgrow raw.block raw.strings.items
    (.fresh block)).bind (r := 0) ?_ fun out left hout => ?_
  · simp only [HeapArray.held, HeapArray.fresh, GrowArray.empty_items, blocks_nil]
    abel
  · obtain ⟨args, places, rfl, hwords, hfits, -, hitems, rfl⟩ := hout
    rw [add_zero]
    refine (owns_terminate args).frame rfl fun out left hout => ?_
    refine ⟨places, hwords, hfits, ?_⟩
    cases out with
    | none =>
        obtain ⟨rfl, hrefused⟩ := hout
        exact ⟨fun _ h => absurd h.symm (Option.some_ne_none _), rfl,
          fun hall => absurd hall hrefused⟩
    | some args' =>
        obtain ⟨rfl, hsame⟩ := hout
        refine ⟨fun args'' h => ?_, rfl, fun _ => Option.some_ne_none _⟩
        obtain rfl := Option.some.inj h
        rw [hsame]
        exact hitems

/-- Every line has its places. When all requests are met, the arguments are those of the parser
without memory, and the lost words those in whose place it puts files. -/
theorem exists_argsPlaces :
    ∃ places, ArgsPlaces grants env line places ∧
      (Met grants →
        (argsParseIn grants env line .empty).1.map HeapArray.words = argWords env.env line ∧
          texts (places.flatMap WordPlace.lost) =
            (rawWords line).filter (isReplaced env.env)) := by
  obtain ⟨left, hleft, hfirst⟩ := @owns_rawArgsIn grants line .empty 0 Ledger.holds_empty
  cases hout : (rawArgsIn grants line .empty).1 with
  | none =>
      have hrun := @argsParseIn_eq grants env line
      rw [hout] at hfirst hrun
      obtain ⟨rfl, hnone⟩ := hfirst
      refine ⟨[], ⟨?_, ?_, fun _ h => absurd h List.not_mem_nil, ?_, ?_⟩, fun hall => ?_⟩
      · rw [rawStrings, hout]
        rfl
      · rw [hout]
        exact fun h => absurd h Bool.false_ne_true
      · rw [hrun]
        exact fun _ h => absurd h.symm (Option.some_ne_none _)
      · rw [hrun]
        exact hleft
      · rw [hrun, argWords, rawWords, hnone hall]
        exact ⟨rfl, rfl⟩
  | some raw =>
      have hrun := @argsParseIn_eq grants env line
      rw [hout] at hfirst hrun
      obtain ⟨rfl, hsplit⟩ := hfirst
      obtain ⟨left, hleft, places, hwords, hfits, hargs, rfl, hmet⟩ :=
        owns_expandArgsIn hstore hitem hgrow env raw.1 raw.2 _ _ hleft
      have htexts : texts (places.map WordPlace.word) = rawWords line := by
        rw [hwords, rawWords, hsplit]
        rfl
      rw [add_zero] at hleft
      refine ⟨places, ⟨?_, fun _ => htexts, hfits, ?_, ?_⟩, fun hall => ⟨?_, ?_⟩⟩
      · rw [hwords, rawStrings, hout]
        rfl
      · rw [hrun]
        exact hargs
      · rw [hrun]
        exact hleft
      · have hline : argLexicon.split line = some (rawWords line) := by
          rw [rawWords, hsplit]
          rfl
        rw [argWords, hline, hrun]
        dsimp only [Option.elim_some] at hargs hmet ⊢
        cases hargv : (expandArgsIn grants env raw.1 raw.2 (rawArgsIn grants line .empty).2).1 with
        | none => exact absurd hargv (hmet hall)
        | some args =>
            have hstored := texts_flatMap_stored hfits hall
            rw [← hargs args hargv, htexts] at hstored
            exact congrArg some hstored
      · rw [texts_flatMap_lost hfits hall, htexts]

/-- **The memory of `args_parse`.** Whatever its other requests come to, nothing is freed twice, and
when it returns each raw word has become an argument, or the files that its wildcards match have, or
the expansions of its braces have, each itself or with files in its place. Held are the arguments
with their array, and the raw words in whose place there are files, and `args_free` leaves just
these. When all requests are met, the arguments are those of the parser without memory. -/
theorem argsParse_owns :
    ∃ places, ArgsPlaces grants env line places ∧
      ((∀ args, (argsParseIn grants env line .empty).1 = some args →
          (args.strings.items.length : ℤ) ≤ intMax) →
        (argsFreeIn (argsParseIn grants env line .empty).1
          (argsParseIn grants env line .empty).2).2.ledger.Balances
            ((places.flatMap WordPlace.lost).map HeapString.block)) ∧
      (Met grants →
        (argsParseIn grants env line .empty).1.elim .failure
            (fun args => .success args.words) = argsParse env.env line ∧
          texts (places.flatMap WordPlace.lost) =
            (rawWords line).filter (isReplaced env.env)) := by
  obtain ⟨places, hplaces, hmet⟩ := exists_argsPlaces hstore hitem hgrow env line
  refine ⟨places, hplaces, fun hfits => ?_, fun hall => ⟨?_, (hmet hall).2⟩⟩
  · obtain ⟨left, hleft, rfl⟩ := owns_argsFreeIn hfits _ _ hplaces.held
    rw [zero_add] at hleft
    exact Ledger.holds_coe.mp hleft
  · rw [argsParse_eq, ← (hmet hall).1]
    cases (argsParseIn grants env line .empty).1 <;> rfl

end Calls

/-- A directory with the files `ab` and `ac`. -/
def twoFiles : HeapEnv := ⟨⟨some fun _ => ⟨[cstr "ab", cstr "ac"], 0⟩, none⟩, fun _ => 0⟩

/-- The line `a* "b c"`: when its three arguments have been freed, the word `a*` is still there, in
the block that the first loop has read it into. -/
theorem argsParse_owns_twoFiles :
    (argsFreeIn (argsParseIn (fun _ _ => true) twoFiles (cstr "a* \"b c\"") .empty).1
      (argsParseIn (fun _ _ => true) twoFiles (cstr "a* \"b c\"") .empty).2).2.ledger.Balances
        [2] := by
  obtain ⟨places, hplaces, hfree, hmet⟩ := @argsParse_owns (fun _ _ => true) (fun _ => rfl)
    (fun _ => rfl) (fun _ => rfl) twoFiles (cstr "a* \"b c\"")
  have hcount : (argsParseIn (fun _ _ => true) twoFiles (cstr "a* \"b c\"") .empty).1.map
      (fun args => args.strings.items.length) = some 3 := by
    decide +kernel
  have hwords : rawStrings (fun _ _ => true) (cstr "a* \"b c\"") =
      [⟨2, cstr "a*"⟩, ⟨3, cstr "b c"⟩] := by
    decide +kernel
  have htexts : texts (places.flatMap WordPlace.lost) = [cstr "a*"] := by
    rw [(hmet fun _ _ => rfl).2]
    decide +kernel
  have hlost : places.flatMap WordPlace.lost = [⟨2, cstr "a*"⟩] := by
    have hsublist := flatMap_lost_sublist hplaces.fits
    rw [hplaces.words, hwords] at hsublist
    have hlength := congrArg List.length htexts
    rw [texts, List.length_map] at hlength
    exact hsublist.eq_of_length hlength
  rw [hlost] at hfree
  refine hfree fun args hargs => ?_
  rw [hargs] at hcount
  have hlength : args.strings.items.length = 3 := Option.some.inj hcount
  rw [hlength]
  decide

/-- Without room for a 17th argument, the matches are freed on their own and once more with the
array that they are in already. -/
example : ¬ (argsParseIn (fun site _ => decide (site ≠ .argsGrow))
    ⟨⟨some fun _ => ⟨List.replicate 17 (cstr "a"), 0⟩, none⟩, fun _ => 0⟩ (cstr "*")
      .empty).2.ledger.freed.Nodup := by
  decide +kernel

section Lists

variable {grants : Grants} (hstore : ∀ n, grants .argsGrow n) (hitem : ∀ n, grants .braceItem n)
  (hgrow : ∀ n, grants .braceGrow n) (env : HeapEnv) (line : CString)

include hstore hitem hgrow

/-- **The memory of `args_parse_to_list`.** Nothing is freed twice, and what has not been freed when
it returns is the list that it returns, and the raw words that `args_parse` has lost: those in whose
place there are files. The list has the arguments of `args_parse`, and it is missing only when there
is no memory for it or no arguments have been parsed. -/
theorem argsParseToList_owns (hfits : ∀ args, (argsParseIn grants env line .empty).1 = some args →
      (args.strings.items.length : ℤ) ≤ intMax) :
    ∃ places, ArgsPlaces grants env line places ∧
      (argsParseToListIn grants env line .empty).2.ledger.Holds
        ((argsParseToListIn grants env line .empty).1.elim 0 HeapList.held +
          blocks (places.flatMap WordPlace.lost)) ∧
      (∀ list, (argsParseToListIn grants env line .empty).1 = some list →
        texts list.strings = texts (places.flatMap WordPlace.stored)) ∧
      (Met grants →
        (argsParseToListIn grants env line .empty).1.map (fun list => texts list.strings) =
            argWords env.env line ∧
          texts (places.flatMap WordPlace.lost) =
            (rawWords line).filter (isReplaced env.env)) := by
  obtain ⟨places, hplaces, hmet⟩ := exists_argsPlaces hstore hitem hgrow env line
  have hrun : argsParseToListIn grants env line .empty =
      argsToList grants (argsParseIn grants env line .empty).1
        (argsParseIn grants env line .empty).2 := rfl
  obtain ⟨left, hleft, rfl, htexts, hnone⟩ :=
    @owns_argsToList grants _ hfits _ _ hplaces.held
  rw [← hrun] at hleft htexts hnone
  refine ⟨places, hplaces, hleft, fun list hlist => ?_, fun hall => ⟨?_, (hmet hall).2⟩⟩
  · obtain ⟨args, hargs, hwords⟩ := Option.map_eq_some_iff.mp (htexts list hlist)
    rw [← hwords, HeapArray.words, hplaces.args args hargs]
  · rw [← (hmet hall).1]
    cases hlist : (argsParseToListIn grants env line .empty).1 with
    | none =>
        rw [hnone hall hlist]
        rfl
    | some list => exact (htexts list hlist).symm

end Lists

/-- The same line as a list, for whose array there is no memory: the arguments are freed all the
same. -/
theorem argsParseToList_owns_refused :
    ∃ lost : List HeapString, lost.Sublist [⟨2, cstr "a*"⟩] ∧
      (argsParseToListIn (fun site _ => decide (site ≠ .listGrow)) twoFiles
        (cstr "a* \"b c\"") .empty).1.isNone = true ∧
      (argsParseToListIn (fun site _ => decide (site ≠ .listGrow)) twoFiles
        (cstr "a* \"b c\"") .empty).2.ledger.Holds (blocks lost) := by
  have hcount : (argsParseIn (fun site _ => decide (site ≠ .listGrow)) twoFiles
      (cstr "a* \"b c\"") .empty).1.map (fun args => args.strings.items.length) = some 3 := by
    decide +kernel
  have hnone : (argsParseToListIn (fun site _ => decide (site ≠ .listGrow)) twoFiles
      (cstr "a* \"b c\"") .empty).1.isNone = true := by
    decide +kernel
  obtain ⟨places, hplaces, hheld, -, -⟩ :=
    @argsParseToList_owns (fun site _ => decide (site ≠ .listGrow)) (fun _ => rfl) (fun _ => rfl)
      (fun _ => rfl) twoFiles (cstr "a* \"b c\"") fun args hargs => by
        rw [hargs] at hcount
        have hlength : args.strings.items.length = 3 := Option.some.inj hcount
        rw [hlength]
        decide
  rw [Option.isNone_iff_eq_none.mp hnone] at hheld
  have hlost := flatMap_lost_sublist hplaces.fits
  rw [hplaces.words, show rawStrings (fun site _ => decide (site ≠ .listGrow))
    (cstr "a* \"b c\"") = [⟨2, cstr "a*"⟩, ⟨3, cstr "b c"⟩] by decide +kernel] at hlost
  exact ⟨_, hlost, hnone, by simpa using hheld⟩

end BasC
