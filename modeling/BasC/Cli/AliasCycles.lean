/-
# Alias cycles

With the built-in argument parser, the first token of an expanded text is the first word of
the value, whatever is behind it, unless the text has an open quote. So a set of aliases whose
values start with names of the set is never left by following first tokens: what piles up
behind the names is cut at the end of `expanded_cmd`, and never reaches the front.
-/

import BasC.Cli.AliasChain
import BasC.Cli.AliasResolution

namespace BasC

open CChar Lib

variable {σ : Type} {env : ArgsEnv} {parser : Parser σ} {map : PrefixMap CString}

/-- A set of aliases: the value of each starts with a text that the argument parser reads as the
name of one of them, and white space is behind that, if anything is. -/
def AliasCycle (env : ArgsEnv) (map : PrefixMap CString) (names : Set CString) : Prop :=
  ∀ name ∈ names, ∃ word rest first others, map.get name = some (word ++ rest) ∧ first ∈ names ∧
    argLexicon.scan .start word = .start ∧ argWords env word = some (first :: others) ∧
    word.length < Buffer.expandedCmd.size ∧ StartsBlank rest

/-- The words of a text come first, when white space is behind it. -/
theorem argWords_startsBlank {word rest : CString} {words : List CString}
    (hstart : argLexicon.scan .start word = .start) (hwords : argWords env word = some words)
    (hblank : StartsBlank rest) :
    argWords env (word ++ rest) = none ∨
      ∃ others, argWords env (word ++ rest) = some (words ++ others) := by
  cases rest with
  | nil => exact .inr ⟨[], by rw [List.append_nil, List.append_nil, hwords]⟩
  | cons c rest =>
      rw [argWords_append_blank hstart hwords (hblank c rfl)]
      cases argWords env rest with
      | none => exact .inl rfl
      | some others => exact .inr ⟨others, rfl⟩

/-- The first token of a text is its first word, if it has one at all. -/
theorem firstToken_argsParse {text first : CString}
    (hwords : argWords env text = none ∨ ∃ others, argWords env text = some (first :: others))
    {world : World σ} {next : Following σ}
    (hnext : firstToken namesInFull (argsParse env text) world = some next) :
    next.name = first ∧ next.world = world := by
  rw [argsParse_eq] at hnext
  rcases hwords with hnone | ⟨others, hsome⟩
  · rw [hnone] at hnext
    cases hnext
  · rw [hsome, Option.elim_some, firstToken, ArgsOut.success_ret, if_neg (not_not.mpr rfl)] at hnext
    obtain ⟨word, hword, rfl⟩ := Option.map_eq_some_iff.mp hnext
    refine ⟨?_, rfl⟩
    unfold ArgsOut.strings at hword
    rw [ArgsOut.success_argv, Option.getD_some] at hword
    -- A count that has wrapped leaves no words.
    cases hcount : (ArgsOut.success (first :: others)).argc.toNat with
    | zero =>
        rw [hcount] at hword
        cases hword
    | succ count =>
        rw [hcount] at hword
        exact (Option.some.inj hword).symm

/-- The first word of an expanded value comes first again. -/
theorem followValue_of_startsBlank (hparser : parser.argsParser = defaultArgsParser env)
    {word rest first : CString} {others : List CString}
    (hstart : argLexicon.scan .start word = .start)
    (hwords : argWords env word = some (first :: others))
    (hfits : word.length < Buffer.expandedCmd.size) (hblank : StartsBlank rest)
    {words : List CString} {world : World σ} {next : Following σ}
    (hnext : followValue namesInFull parser (word ++ rest) words world = some next) :
    next.name = first ∧ next.world = world := by
  have htext : expandedCmd namesInFull (word ++ rest) words =
      word ++ (rest ++ words.flatMap (blank :: ·)).take (1023 - word.length) := by
    rw [expandedCmd_eq]
    show ((word ++ rest) ++ words.flatMap (blank :: ·)).take 1023 = _
    have hsize : Buffer.expandedCmd.size = 1024 := rfl
    rw [List.append_assoc, List.take_append, List.take_of_length_le (by omega)]
  have hbehind : StartsBlank ((rest ++ words.flatMap (blank :: ·)).take (1023 - word.length)) := by
    refine StartsBlank.of_prefix ?_ (List.take_prefix _ _)
    cases rest with
    | nil => exact startsBlank_flatMap words
    | cons c rest => exact hblank
  unfold followValue at hnext
  rw [hparser, htext] at hnext
  rcases argWords_startsBlank hstart hwords hbehind with hnone | ⟨more, hsome⟩
  · exact firstToken_argsParse (.inl hnone) hnext
  · exact firstToken_argsParse (.inr ⟨_, hsome⟩) hnext

/-- **A cycle is never left.** -/
theorem staysAliased_of_aliasCycle (hparser : parser.argsParser = defaultArgsParser env)
    {names : Set CString} (hcycle : AliasCycle env map names) {place : Following σ}
    (hname : place.name ∈ names) (hmap : place.world.aliasMap = some map) (left : ℕ) :
    staysAliased namesInFull parser left place = true := by
  let places : Set (Following σ) :=
    {place | place.name ∈ names ∧ place.world.aliasMap = some map}
  have halias : ∀ place ∈ places,
      (aliasOf parser place.name place.world).1.isSome = true := by
    rintro place ⟨hname, hmap⟩
    obtain ⟨word, rest, -, -, hget, -⟩ := hcycle place.name hname
    rw [aliasOf_of_map hmap, hget]
    rfl
  have hclosed : ∀ place ∈ places, ∀ next,
      follow namesInFull parser place = some next → next ∈ places := by
    rintro place ⟨hname, hmap⟩ next hnext
    obtain ⟨word, rest, first, others, hget, hmem, hstart, hwords, hfits, hblank⟩ :=
      hcycle place.name hname
    unfold follow at hnext
    rw [aliasOf_of_map hmap, hget] at hnext
    obtain ⟨rfl, hworld⟩ :=
      followValue_of_startsBlank hparser hstart hwords hfits hblank hnext
    exact ⟨hmem, hworld ▸ hmap⟩
  exact staysAliased_of_closed halias hclosed ⟨hname, hmap⟩ left

end BasC
