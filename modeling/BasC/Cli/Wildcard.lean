/-
# The directory a wildcard names

A wildcard pattern names a directory: the part before its last slash, taken from the
root when it is absolute and from the current directory otherwise. `expand_wildcard`
hands one directory path to the enumeration function and returns paths built from the
names reported. This module determines the patterns for which both belong to the
directory the pattern names.

Paths are compared by the names they walk through, so `/a//b` and `/a/b` are the same
directory; `.` and `..` are names like any other.
-/

import BasC.Cli.Args
import BasC.Lib.Path

namespace BasC

open CChar Lib

/-- The names of the entries of each directory, which is given by its walk from the root.
Names are non-empty, have no slash, and fit `NAME_MAX`. -/
structure FileSystem where
  entries : List CString → List CString
  name_ne_nil : ∀ dir, ∀ name ∈ entries dir, name ≠ []
  slash_not_mem : ∀ dir, ∀ name ∈ entries dir, slash ∉ name
  name_length_le : ∀ dir, ∀ name ∈ entries dir, name.length ≤ 255

/-- An enumeration function does what `enum_fn` documents: each item it reports is the full
path of an entry of the directory it was given. -/
def FileSystem.Reports (fs : FileSystem) (enumFunc : EnumCall → EnumResult) : Prop :=
  ∀ (call : EnumCall) (dir : CString), call.enumContext = some dir →
    ∀ item ∈ (enumFunc call).items, ∃ (parent : CString) (name : CString),
      item = parent ++ slash :: name ∧ components slash parent = components slash dir ∧
        name ∈ fs.entries (components slash dir)

/-- The walk of a path taken from the current directory. -/
def resolve (cwd path : CString) : List CString :=
  if path.head? = some slash then components slash path
  else components slash cwd ++ components slash path

/-- The directory that a wildcard pattern names: the part before its last slash, which is
the root when nothing precedes it, or the current directory without a slash. -/
def namedDirectory (cwd pattern : CString) : List CString :=
  match strrchr pattern slash with
  | none => components slash cwd
  | some (dir, _) => if dir = [] then [] else resolve cwd dir

/-- The directory handed to the enumeration function is the one the pattern names, and
every path produced is the path of an entry of it. -/
def ExpandsNamedDirectory (fs : FileSystem) (enumFunc : EnumCall → EnumResult)
    (cwd pattern : CString) : Prop :=
  (∀ call ∈ (expandWildcard ⟨some enumFunc, some cwd⟩ pattern).calls,
      ∃ dir, call.enumContext = some dir ∧
        components slash dir = namedDirectory cwd pattern) ∧
    ∀ arg ∈ (expandWildcard ⟨some enumFunc, some cwd⟩ pattern).matchArray,
      ∃ name ∈ fs.entries (namedDirectory cwd pattern),
        resolve cwd arg = namedDirectory cwd pattern ++ [name]

/-- The pattern reaches the directory it names. Without a slash it always does. A relative
directory part that fits its buffer needs the joined path to lose nothing but slashes; an
absolute one is joined to the current directory all the same, and the joined path has to
walk where the part alone does. A directory part that is empty or does not fit is dropped,
and then the current directory has to be the one meant. -/
def WellAimed (cwd pattern : CString) : Prop :=
  match strrchr pattern slash with
  | none => True
  | some (dir, _) =>
      if 0 < dir.length ∧ dir.length < 256 then
        if dir.head? = some slash then
          components slash (bounded 1024 (cwd ++ slash :: dir)) = components slash dir
        else ∀ c ∈ (cwd ++ slash :: dir).drop 1023, c = slash
      else (dir = [] ∨ dir.head? = some slash) ∧ components slash cwd = components slash dir

theorem expandWildcard_calls (enumFunc : EnumCall → EnumResult) (cwd pattern : CString) :
    (expandWildcard ⟨some enumFunc, some cwd⟩ pattern).calls =
      [wildcardCall ⟨some enumFunc, some cwd⟩ pattern] := by
  simp only [expandWildcard]
  split <;> rfl

theorem mem_expandWildcard {enumFunc : EnumCall → EnumResult} {cwd pattern arg : CString}
    (harg : arg ∈ (expandWildcard ⟨some enumFunc, some cwd⟩ pattern).matchArray) :
    ∃ item ∈ (enumFunc (wildcardCall ⟨some enumFunc, some cwd⟩ pattern)).items,
      wildcardCallback (patternParts pattern).1 (patternParts pattern).2 item = some arg := by
  simp only [expandWildcard] at harg
  split at harg
  · exact List.mem_filterMap.mp harg
  · simp at harg

/-- The path handed to the enumeration function, from an absolute current directory. -/
theorem enumDirContext_eq {cwd : CString} (hcwd : cwd.head? = some slash)
    (patternDir : CString) :
    enumDirContext (some cwd) patternDir =
      some (if patternDir = [] then cwd
        else if cwd = [slash] then bounded 1024 (slash :: patternDir)
        else bounded 1024 (cwd ++ slash :: patternDir)) := by
  obtain ⟨tail, rfl⟩ : ∃ tail, cwd = slash :: tail := by
    cases cwd with
    | nil => simp at hcwd
    | cons c tail => exact ⟨tail, by simpa using hcwd⟩
  unfold enumDirContext
  by_cases hdir : patternDir = []
  · simp [hdir]
  · simp only [hdir, if_false, Option.getD_some]
    split <;> rfl

/-- A directory part that fits its buffer keeps its walk behind the root directory. -/
theorem components_bounded_root {dir : CString} (hfits : dir.length < 256) :
    components slash (bounded 1024 (slash :: dir)) = components slash dir := by
  rw [bounded_eq_self (by simp; omega), components_cons_sep]

/-- A directory part that fits its buffer is joined to the current directory. -/
theorem components_joined_iff {cwd dir : CString} (hfits : dir.length < 256) :
    components slash (if cwd = [slash] then bounded 1024 (slash :: dir)
        else bounded 1024 (cwd ++ slash :: dir)) = resolve cwd dir ↔
      if dir.head? = some slash then
        components slash (bounded 1024 (cwd ++ slash :: dir)) = components slash dir
      else ∀ c ∈ (cwd ++ slash :: dir).drop 1023, c = slash := by
  unfold resolve
  by_cases habsolute : dir.head? = some slash
  · simp only [habsolute, if_true]
    by_cases hroot : cwd = [slash]
    · have hlength : (cwd ++ slash :: dir).length < 1024 := by
        simp [hroot]
        omega
      rw [if_pos hroot, components_bounded_root hfits, bounded_eq_self hlength, hroot]
      simp
    · rw [if_neg hroot]
  · simp only [habsolute, if_false]
    have hjoin : components slash cwd ++ components slash dir =
        components slash (cwd ++ slash :: dir) :=
      (components_append_cons slash cwd dir).symm
    by_cases hroot : cwd = [slash]
    · have hlength : (cwd ++ slash :: dir).length ≤ 1023 := by
        simp [hroot]
        omega
      rw [if_pos hroot, components_bounded_root hfits, List.drop_of_length_le hlength, hroot]
      simp
    · rw [if_neg hroot, hjoin]
      exact components_take_eq_iff slash _ 1023

/-- A path that does not start with a slash walks somewhere. -/
theorem components_ne_nil {path : CString} (hne : path ≠ []) (hrelative : path.head? ≠ some slash) :
    components slash path ≠ [] := by
  intro hwalk
  have hletters := flatten_components slash path
  rw [hwalk] at hletters
  cases path with
  | nil => exact hne rfl
  | cons c path =>
      have hc : c ≠ slash := by simpa using hrelative
      simp [hc] at hletters

/-- Without its directory part, a pattern is looked up in the current directory. -/
theorem components_dropped_iff {cwd dir : CString} :
    (components slash cwd = if dir = [] then [] else resolve cwd dir) ↔
      (dir = [] ∨ dir.head? = some slash) ∧ components slash cwd = components slash dir := by
  unfold resolve
  by_cases hnil : dir = []
  · simp [hnil]
  · by_cases habsolute : dir.head? = some slash
    · simp [hnil, habsolute]
    · simp only [hnil, habsolute, if_false, false_or, false_and, iff_false]
      intro hsame
      exact components_ne_nil hnil habsolute (List.self_eq_append_right.mp hsame)

/-- **Where the enumeration goes.** The enumerated path walks to the directory the pattern
names exactly for the well-aimed patterns. -/
theorem components_enumDirContext_iff {cwd : CString} (hcwd : cwd.head? = some slash)
    (pattern : CString) :
    (∃ dir, enumDirContext (some cwd) (patternParts pattern).1 = some dir ∧
        components slash dir = namedDirectory cwd pattern) ↔ WellAimed cwd pattern := by
  rw [enumDirContext_eq hcwd]
  simp only [Option.some.injEq, exists_eq_left']
  unfold patternParts namedDirectory WellAimed
  cases strrchr pattern slash with
  | none => simp
  | some cut =>
      obtain ⟨dir, lastSlash⟩ := cut
      by_cases hfits : 0 < dir.length ∧ dir.length < 256
      · have hne : dir ≠ [] := List.ne_nil_of_length_pos hfits.1
        simp only [hfits, and_self, if_true, hne, if_false]
        exact components_joined_iff hfits.2
      · simp only [hfits, if_false, if_true]
        exact components_dropped_iff

/-- The name of a reported item, matched against the pattern. -/
theorem wildcardCallback_eq_some {patternDir filePattern parent name arg : CString}
    (hslash : slash ∉ name) (hdir : patternDir.length < 256) (hname : name.length ≤ 255)
    (harg : wildcardCallback patternDir filePattern (parent ++ slash :: name) = some arg) :
    arg = if patternDir = [] then name else patternDir ++ slash :: name := by
  unfold wildcardCallback at harg
  simp only [strrchr_append parent hslash, List.tail_cons, ne_eq, ite_not] at harg
  split at harg
  · split at harg
    · rename_i hnil
      rw [if_pos hnil, ← Option.some.inj harg, bounded_eq_self (by omega)]
    · rename_i hne
      have hlength : (patternDir ++ slash :: name).length < 1024 := by
        simp only [List.length_append, List.length_cons]
        omega
      rw [if_neg hne, ← Option.some.inj harg, bounded_eq_self hlength]
  · simp at harg

theorem length_patternDir_lt (pattern : CString) : (patternParts pattern).1.length < 256 := by
  unfold patternParts
  split
  · simp only
    split
    · rename_i hfits
      exact hfits.2
    · simp
  · simp

theorem resolve_name (cwd : CString) {name : CString} (hne : name ≠ []) (hslash : slash ∉ name) :
    resolve cwd name = components slash cwd ++ [name] := by
  have hhead : name.head? ≠ some slash := fun heq => hslash (List.mem_of_mem_head? heq)
  rw [resolve, if_neg hhead, components_of_not_mem hne hslash]

/-- A produced path walks to the directory of its pattern part and from there to the
name. -/
theorem resolve_join (cwd : CString) {dir name : CString} (hdir : dir ≠ []) (hne : name ≠ [])
    (hslash : slash ∉ name) :
    resolve cwd (dir ++ slash :: name) = resolve cwd dir ++ [name] := by
  obtain ⟨c, dir, rfl⟩ := List.exists_cons_of_ne_nil hdir
  have hwalk : components slash ((c :: dir) ++ slash :: name) =
      components slash (c :: dir) ++ [name] := by
    rw [components_append_cons, components_of_not_mem hne hslash]
  have hhead : ((c :: dir) ++ slash :: name).head? = (c :: dir).head? := rfl
  unfold resolve
  rw [hwalk, hhead]
  split
  · rfl
  · exact (List.append_assoc _ _ _).symm

theorem resolve_wildcardCallback {cwd pattern name : CString} (haimed : WellAimed cwd pattern)
    (hne : name ≠ []) (hslash : slash ∉ name) :
    resolve cwd (if (patternParts pattern).1 = [] then name
        else (patternParts pattern).1 ++ slash :: name) =
      namedDirectory cwd pattern ++ [name] := by
  revert haimed
  unfold patternParts namedDirectory WellAimed
  cases strrchr pattern slash with
  | none => simpa using resolve_name cwd hne hslash
  | some cut =>
      obtain ⟨dir, lastSlash⟩ := cut
      intro haimed
      by_cases hfits : 0 < dir.length ∧ dir.length < 256
      · have hdir : dir ≠ [] := List.ne_nil_of_length_pos hfits.1
        simpa [hfits, hdir] using resolve_join cwd hdir hne hslash
      · simp only [hfits, if_false] at haimed
        obtain ⟨habsolute, hsame⟩ := haimed
        simp only [hfits, if_false, if_true]
        rw [resolve_name cwd hne hslash, hsame]
        by_cases hnil : dir = []
        · simp [hnil]
        · have hhead : dir.head? = some slash := habsolute.resolve_left hnil
          simp [hnil, resolve, hhead]

/-- **A wildcard expands to entries of the directory it names exactly when it is well
aimed.** -/
theorem expandsNamedDirectory_iff (fs : FileSystem) {enumFunc : EnumCall → EnumResult}
    (hreports : fs.Reports enumFunc) {cwd : CString} (hcwd : cwd.head? = some slash)
    (pattern : CString) :
    ExpandsNamedDirectory fs enumFunc cwd pattern ↔ WellAimed cwd pattern := by
  unfold ExpandsNamedDirectory
  rw [expandWildcard_calls]
  have hcontext : (wildcardCall ⟨some enumFunc, some cwd⟩ pattern).enumContext =
      enumDirContext (some cwd) (patternParts pattern).1 := rfl
  constructor
  · rintro ⟨hdirs, -⟩
    have hdir := hdirs _ (List.mem_singleton_self _)
    rw [hcontext] at hdir
    exact (components_enumDirContext_iff hcwd pattern).mp hdir
  · intro haimed
    obtain ⟨dir, hdir, hwalk⟩ := (components_enumDirContext_iff hcwd pattern).mpr haimed
    refine ⟨?_, ?_⟩
    · intro call hcall
      rw [List.mem_singleton.mp hcall, hcontext]
      exact ⟨dir, hdir, hwalk⟩
    · intro arg harg
      obtain ⟨item, hitem, hcallback⟩ := mem_expandWildcard harg
      obtain ⟨parent, name, rfl, -, hentry⟩ := hreports _ dir (hcontext.trans hdir) item hitem
      have hne := fs.name_ne_nil _ name hentry
      have hslash := fs.slash_not_mem _ name hentry
      have hlength := fs.name_length_le _ name hentry
      refine ⟨name, hwalk ▸ hentry, ?_⟩
      rw [wildcardCallback_eq_some hslash (length_patternDir_lt pattern) hlength hcallback]
      exact resolve_wildcardCallback haimed hne hslash

/-- A file system with one file `x` in every directory. -/
def everywhereX : FileSystem where
  entries _ := [cstr "x"]
  name_ne_nil := by
    intro dir name hname
    rw [List.mem_singleton.mp hname]
    decide
  slash_not_mem := by
    intro dir name hname
    rw [List.mem_singleton.mp hname]
    decide
  name_length_le := by
    intro dir name hname
    rw [List.mem_singleton.mp hname]
    decide

/-- The enumeration function of that file system. -/
def enumerateX (call : EnumCall) : EnumResult :=
  ⟨[call.enumContext.getD [] ++ slash :: cstr "x"], 0⟩

theorem everywhereX_reports : everywhereX.Reports enumerateX := by
  intro call dir hdir item hitem
  refine ⟨dir, cstr "x", ?_, rfl, List.mem_singleton_self _⟩
  simpa [enumerateX, hdir] using hitem

/-- The relative pattern `b/*` is well aimed from `/a`. -/
theorem expandsNamedDirectory_relative :
    ExpandsNamedDirectory everywhereX enumerateX (cstr "/a") (cstr "b/*") := by
  have hcut : strrchr (cstr "b/*") slash = some (cstr "b", cstr "/*") := by decide +kernel
  have haimed : WellAimed (cstr "/a") (cstr "b/*") := by
    simp only [WellAimed, hcut]
    decide +kernel
  exact (expandsNamedDirectory_iff everywhereX everywhereX_reports (by decide) _).mpr haimed

/-- From `/a`, the pattern `/*` enumerates `/a` and not the root. -/
theorem not_expandsNamedDirectory_root :
    ¬ ExpandsNamedDirectory everywhereX enumerateX (cstr "/a") (cstr "/*") := by
  rintro ⟨hdirs, -⟩
  obtain ⟨dir, hdir, hwalk⟩ :=
    hdirs _ (by rw [expandWildcard_calls]; exact List.mem_singleton_self _)
  have hsame : some (cstr "/a") = some dir := hdir
  rw [← Option.some.inj hsame] at hwalk
  exact absurd hwalk (by decide +kernel)

end BasC
