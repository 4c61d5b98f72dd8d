/-
# Filtering by the whole pattern

A wildcard argument without a slash is to become the names reported that it matches. The
pattern goes through a buffer of 256 bytes and each name found through one of 1024, so the
filter is the documented one exactly on the names that the cut pattern accepts alike and
that fit when they are accepted.
-/

import BasC.Cli.EarlyFilter

namespace BasC

open CChar Lib

/-- A wildcard argument without a directory part. -/
structure PlainWildcard where
  text : CString
  no_slash : slash ∉ text
  wild : containsWildcard text = true

/-- The names that the argument is to become: the last components of the reported items that
it accepts, or the argument itself. -/
def filteredNames (arg : CString) (items : List CString) : List CString :=
  match (items.map itemName).filter (fnmatch arg) with
  | [] => [arg]
  | names => names

/-- The second pass turns the argument into these names when an enumeration reports the items
and succeeds. -/
def FiltersExactly (arg : CString) (items : List CString) : Prop :=
  ∀ enumContext out,
    (addWildcard ⟨some fun _ => ⟨items, 0⟩, enumContext⟩ out arg).args.items =
      out.args.items ++ filteredNames arg items

/-- The buffers do no harm to an item: the cut pattern accepts its last component exactly when
the pattern does, and a component that is accepted fits. -/
def PassesBuffers (arg item : CString) : Prop :=
  fnmatch (bounded 256 arg) (itemName item) = fnmatch arg (itemName item) ∧
    (fnmatch arg (itemName item) = true → (itemName item).length < 1024)

/-- What the callback makes of one item, without a directory part. -/
theorem wildcardCallback_nil (filePattern item : CString) :
    wildcardCallback [] filePattern item =
      if fnmatch filePattern (itemName item) then some (bounded 1024 (itemName item))
      else none := by
  unfold wildcardCallback itemName
  cases strrchr item slash <;> simp

theorem patternParts_of_no_slash {arg : CString} (hslash : slash ∉ arg) :
    patternParts arg = ([], bounded 256 arg) := by
  simp [patternParts, (strrchr_eq_none_iff arg slash).mpr hslash]

/-- The names that the second pass finds. -/
def foundNames (arg : CString) (items : List CString) : List CString :=
  items.filterMap (wildcardCallback [] (bounded 256 arg))

theorem addWildcard_plain (arg : PlainWildcard) (items : List CString)
    (enumContext : Option CString) (out : Expansion) :
    (addWildcard ⟨some fun _ => ⟨items, 0⟩, enumContext⟩ out arg.text).args.items =
      out.args.items ++
        match foundNames arg.text items with
        | [] => [arg.text]
        | names => names := by
  have hparts := patternParts_of_no_slash arg.no_slash
  obtain ⟨hitems, -⟩ :=
    addWildcard_spec ⟨some fun _ => ⟨items, 0⟩, enumContext⟩ out arg.text
  rw [hitems]
  congr 1
  simp only [wildcardWords, wildcardMatches, expandWildcard, hparts, arg.wild, Bool.true_and]
  rw [foundNames]
  cases items.filterMap (wildcardCallback [] (bounded 256 arg.text)) <;> simp

/-- The argument is filtered exactly when what is found is what is wanted, or both stand for
the argument itself. -/
theorem filtersExactly_iff_found (arg : PlainWildcard) (items : List CString) :
    FiltersExactly arg.text items ↔
      (match foundNames arg.text items with
        | [] => [arg.text]
        | names => names) = filteredNames arg.text items := by
  unfold FiltersExactly
  simp only [addWildcard_plain, List.append_cancel_left_eq]
  exact ⟨fun hall => hall none ⟨argVector, []⟩, fun hsame _ _ => hsame⟩

theorem foundNames_of_passes {arg : CString} {items : List CString}
    (hpasses : ∀ item ∈ items, PassesBuffers arg item) :
    foundNames arg items = (items.map itemName).filter (fnmatch arg) := by
  induction items with
  | nil => rfl
  | cons item items ih =>
      obtain ⟨hsame, hfits⟩ := hpasses item (by simp)
      have hrest := ih fun other hother => hpasses other (by simp [hother])
      rw [foundNames] at hrest ⊢
      rw [List.filterMap_cons, wildcardCallback_nil, hsame, List.map_cons, List.filter_cons, hrest]
      by_cases haccepts : fnmatch arg (itemName item) = true
      · rw [if_pos haccepts, if_pos haccepts, bounded_eq_self (hfits haccepts)]
      · rw [if_neg haccepts, if_neg haccepts]

/-- An item reported twice tells what the buffers do to it. -/
theorem passesBuffers_of_twice {arg item : CString}
    (hsame : (match foundNames arg [item, item] with
        | [] => [arg]
        | names => names) = filteredNames arg [item, item]) :
    PassesBuffers arg item := by
  unfold foundNames filteredNames at hsame
  simp only [List.filterMap_cons, wildcardCallback_nil, List.map_cons, List.filter_cons] at hsame
  by_cases hcut : fnmatch (bounded 256 arg) (itemName item) = true
  · by_cases haccepts : fnmatch arg (itemName item) = true
    · have hname : bounded 1024 (itemName item) = itemName item := by
        simpa [hcut, haccepts] using hsame
      refine ⟨hcut.trans haccepts.symm, fun _ => ?_⟩
      have hlength := congrArg List.length hname
      simp only [bounded, List.length_take] at hlength
      omega
    · simp [hcut, haccepts] at hsame
  · by_cases haccepts : fnmatch arg (itemName item) = true
    · simp [hcut, haccepts] at hsame
    · rw [Bool.not_eq_true] at hcut haccepts
      exact ⟨hcut.trans haccepts.symm, fun htrue => by simp [haccepts] at htrue⟩

/-- A pattern that fits its buffer finds the names it accepts, each as far as it fits. -/
theorem foundNames_of_fits {arg : CString} (hfits : arg.length < 256) (items : List CString) :
    foundNames arg items =
      ((items.map itemName).filter (fnmatch arg)).map (bounded 1024) := by
  rw [foundNames, bounded_eq_self hfits]
  induction items with
  | nil => rfl
  | cons item items ih =>
      rw [List.filterMap_cons, wildcardCallback_nil, ih, List.map_cons, List.filter_cons]
      by_cases haccepts : fnmatch arg (itemName item) = true
      · rw [if_pos haccepts, if_pos haccepts, List.map_cons]
      · rw [if_neg haccepts, if_neg haccepts]

theorem filtersExactly_iff_of_fits (arg : PlainWildcard) (hfits : arg.text.length < 256)
    (items : List CString) :
    FiltersExactly arg.text items ↔ ∀ item ∈ items, PassesBuffers arg.text item := by
  constructor
  · intro hfilters item hitem
    rw [filtersExactly_iff_found, foundNames_of_fits hfits] at hfilters
    refine ⟨by rw [bounded_eq_self hfits], fun haccepts => ?_⟩
    have hmem : itemName item ∈ (items.map itemName).filter (fnmatch arg.text) :=
      List.mem_filter.mpr ⟨List.mem_map_of_mem hitem, haccepts⟩
    unfold filteredNames at hfilters
    generalize (items.map itemName).filter (fnmatch arg.text) = names at hfilters hmem
    have hall : names.map (bounded 1024) = names.map id := by
      cases names with
      | nil => cases hmem
      | cons name names => simpa using hfilters
    have hlength := congrArg List.length (List.map_inj_left.mp hall _ hmem)
    simp only [bounded, List.length_take, id_eq] at hlength
    omega
  · intro hpasses
    rw [filtersExactly_iff_found, foundNames_of_passes hpasses]
    rfl

/-- **When filtering uses the whole pattern.** Whatever list of items is reported out of a
set, the arguments are the accepted names, if and only if every item of the set passes the
two buffers. With a pattern that fits its buffer, each list tells by itself. -/
theorem filtersExactly_iff (arg : PlainWildcard) :
    (∀ may : Set CString,
        (∀ items : List CString, (∀ item ∈ items, item ∈ may) →
          FiltersExactly arg.text items) ↔ ∀ item ∈ may, PassesBuffers arg.text item) ∧
      (arg.text.length < 256 → ∀ items : List CString,
        FiltersExactly arg.text items ↔ ∀ item ∈ items, PassesBuffers arg.text item) := by
  refine ⟨fun may => ⟨?_, ?_⟩, filtersExactly_iff_of_fits arg⟩
  · intro hfilters item hitem
    apply passesBuffers_of_twice
    apply (filtersExactly_iff_found arg _).mp
    apply hfilters
    simpa using hitem
  · intro hpasses items hitems
    rw [filtersExactly_iff_found,
      foundNames_of_passes fun item hitem => hpasses item (hitems item hitem)]
    rfl

/-- A pattern of 257 bytes: 254 letters, a star, and an extension that its buffer loses. -/
def longWildcard : CString := List.replicate 254 lowerX ++ cstr "*.c"

/-- Names found that are not the names wanted are what the argument becomes. -/
theorem not_filtersExactly_of_found (arg : PlainWildcard) {items : List CString}
    {name : CString} (hfound : foundNames arg.text items = [name])
    (hwrong : [name] ≠ filteredNames arg.text items) : ¬ FiltersExactly arg.text items := by
  intro hfilters
  have hsame := (filtersExactly_iff_found arg items).mp hfilters
  rw [hfound] at hsame
  exact hwrong hsame

/-- The long pattern becomes a name without the extension. -/
theorem not_filtersExactly_longWildcard :
    ∃ arg : PlainWildcard, arg.text = longWildcard ∧
      ¬ FiltersExactly arg.text [longWildcard.take 254 ++ cstr "b"] := by
  refine ⟨⟨longWildcard, by decide +kernel, by decide +kernel⟩, rfl, ?_⟩
  apply not_filtersExactly_of_found
  · show foundNames longWildcard [longWildcard.take 254 ++ cstr "b"] =
      [longWildcard.take 254 ++ cstr "b"]
    decide +kernel
  · show [longWildcard.take 254 ++ cstr "b"] ≠
      filteredNames longWildcard [longWildcard.take 254 ++ cstr "b"]
    decide +kernel

end BasC
