/-
# Histories of the prefix map

The same keys and values can be put into a map in many orders, and the chains remember the
order: a new entry goes to the head of its chain. Whatever the history was, the answer of
`prefix_map_find_prefix` is the value of a finalist; and each finalist is the answer after
some history. So the answer is free of history exactly when all finalists have one value.
-/

import BasC.Util.PrefixMapSearch

namespace BasC

open Lib

/-- A call that changes the entries of a map. -/
inductive MapEdit (α : Type)
  | add (key : CString) (value : α)
  | remove (key : CString)

namespace PrefixMap

variable {α : Type}

/-- `prefix_map_add` or `prefix_map_remove`. -/
def edit (map : PrefixMap α) : MapEdit α → PrefixMap α
  | .add key value => map.add key value
  | .remove key => (map.remove key).2

/-- What a sequence of calls makes of a new map. -/
def edited (edits : List (MapEdit α)) : PrefixMap α := edits.foldl edit create

/-- The maps have the same keys with the same values. -/
def SamePairs (map map' : PrefixMap α) : Prop := ∀ key, map.get key = map'.get key

theorem WellFormed.foldl_edit {map : PrefixMap α} (hmap : map.WellFormed)
    (edits : List (MapEdit α)) : (edits.foldl edit map).WellFormed := by
  induction edits generalizing map with
  | nil => exact hmap
  | cons op edits ih =>
      apply ih
      cases op with
      | add key value => exact hmap.add key value
      | remove key => exact hmap.remove key

theorem wellFormed_edited (edits : List (MapEdit α)) : (edited edits).WellFormed :=
  wellFormed_create.foldl_edit edits

theorem SamePairs.mem_entries_iff {map map' : PrefixMap α} (hsame : SamePairs map map')
    (hmap : map.WellFormed) (hmap' : map'.WellFormed) (entry : PrefixMapEntry α) :
    entry ∈ map.entries ↔ entry ∈ map'.entries := by
  rw [← hmap.get_eq_some_iff, ← hmap'.get_eq_some_iff, hsame]

/-- Who is a finalist does not depend on the order of the entries. -/
theorem SamePairs.finalist_iff {map map' : PrefixMap α} (hsame : SamePairs map map')
    (hmap : map.WellFormed) (hmap' : map'.WellFormed) (search : CString)
    (entry : PrefixMapEntry α) : map.Finalist search entry ↔ map'.Finalist search entry := by
  have hmem : ∀ other, other ∈ map.candidates search ↔ other ∈ map'.candidates search := by
    intro other
    rw [candidates, candidates, List.mem_filter, List.mem_filter,
      hsame.mem_entries_iff hmap hmap']
  rw [Finalist, Finalist, hmem]
  exact and_congr_right fun _ => forall_congr' fun other => by rw [hmem]

/-- All finalists have the same value. -/
def Settled (map : PrefixMap α) (search : CString) : Prop :=
  ∀ first second, map.Finalist search first → map.Finalist search second →
    first.value = second.value

/-- Calls that add the entries of a list in turn. -/
def adds (entries : List (PrefixMapEntry α)) : List (MapEdit α) :=
  entries.map fun entry => .add entry.key entry.value

theorem add_of_lacks {map : PrefixMap α} {entry : PrefixMapEntry α}
    (hlacks : Lacks entry.key (map.buckets (hashString entry.key))) :
    map.add entry.key entry.value =
      ⟨Function.update map.buckets (hashString entry.key)
        (entry :: map.buckets (hashString entry.key)), map.count + 1⟩ := by
  simp only [add, (chain_of_lacks hlacks).2.1]

/-- New entries stand in their chains from the last one added to the first. -/
theorem buckets_foldl_adds {entries : List (PrefixMapEntry α)} {map : PrefixMap α}
    (hnew : ∀ entry ∈ entries, ∀ i, Lacks entry.key (map.buckets i))
    (hdistinct : (entries.map PrefixMapEntry.key).Nodup) (i : Fin prefixMapSize) :
    ((adds entries).foldl edit map).buckets i =
      (entries.filter fun entry => hashString entry.key = i).reverse ++ map.buckets i := by
  induction entries generalizing map with
  | nil => rfl
  | cons entry entries ih =>
      rw [List.map_cons, List.nodup_cons] at hdistinct
      rw [List.forall_mem_cons] at hnew
      have hadd := add_of_lacks (hnew.1 (hashString entry.key))
      have hrest : ∀ other ∈ entries, ∀ j,
          Lacks other.key ((map.add entry.key entry.value).buckets j) := by
        intro other hother j present hpresent hkey
        rcases mem_buckets_add hpresent with hold | ⟨-, hfirst⟩
        · exact hnew.2 other hother j present hold hkey
        · exact hdistinct.1 (List.mem_map.mpr ⟨other, hother, hkey.symm.trans hfirst⟩)
      rw [adds, List.map_cons, List.foldl_cons, ← adds]
      show ((adds entries).foldl edit (map.add entry.key entry.value)).buckets i = _
      rw [ih hrest hdistinct.2, hadd]
      by_cases hi : hashString entry.key = i
      · subst hi
        simp
      · simp [hi, Function.update_of_ne (Ne.symm hi)]

theorem buckets_edited_adds {entries : List (PrefixMapEntry α)}
    (hdistinct : (entries.map PrefixMapEntry.key).Nodup) (i : Fin prefixMapSize) :
    (edited (adds entries)).buckets i =
      (entries.filter fun entry => hashString entry.key = i).reverse := by
  rw [edited, buckets_foldl_adds (fun _ _ _ => by simp [Lacks, create]) hdistinct]
  exact List.append_nil _

theorem mem_entries_edited_adds {entries : List (PrefixMapEntry α)}
    (hdistinct : (entries.map PrefixMapEntry.key).Nodup) (entry : PrefixMapEntry α) :
    entry ∈ (edited (adds entries)).entries ↔ entry ∈ entries := by
  simp [mem_entries_iff, buckets_edited_adds hdistinct]

/-- The entries in front of a chain and behind it. -/
theorem entries_split (map : PrefixMap α) (i : Fin prefixMapSize) :
    ∃ front back, map.entries = front ++ map.buckets i ++ back ∧
      (∀ entry ∈ front, ∃ j < i, entry ∈ map.buckets j) ∧
      ∀ entry ∈ back, ∃ j, i < j ∧ entry ∈ map.buckets j := by
  obtain ⟨lower, upper, hsplit⟩ := List.append_of_mem (List.mem_finRange i)
  have hordered := List.pairwise_lt_finRange prefixMapSize
  rw [hsplit, List.pairwise_append, List.pairwise_cons] at hordered
  refine ⟨lower.flatMap map.buckets, upper.flatMap map.buckets, ?_, ?_, ?_⟩
  · rw [entries, hsplit, List.flatMap_append, List.flatMap_cons, List.append_assoc]
  · intro entry hentry
    obtain ⟨j, hj, hmem⟩ := List.mem_flatMap.mp hentry
    exact ⟨j, hordered.2.2 j hj i List.mem_cons_self, hmem⟩
  · intro entry hentry
    obtain ⟨j, hj, hmem⟩ := List.mem_flatMap.mp hentry
    exact ⟨j, hordered.2.1.1 j hj, hmem⟩

/-- The answer is the value of an entry that replaces all that are visited before it, and
that none behind it replaces. -/
theorem findPrefix_of_split {map : PrefixMap α} {search : CString}
    {before after : List (PrefixMapEntry α)} {entry : PrefixMapEntry α}
    (hentries : map.entries = before ++ entry :: after)
    (hmatch : matchesPrefix search entry = true)
    (hbefore : ∀ other ∈ before, matchesPrefix search other = true → Replaces search entry other)
    (hafter : ∀ other ∈ after, matchesPrefix search other = true →
      ¬ Replaces search other entry) :
    map.findPrefix search = some entry.value := by
  rw [findPrefix_eq, candidates, hentries, List.filter_append, List.filter_cons_of_pos hmatch,
    foldl_argAux_split]
  · rfl
  · intro other hother
    exact hbefore other (List.mem_filter.mp hother).1 (List.mem_filter.mp hother).2
  · intro other hother
    exact hafter other (List.mem_filter.mp hother).1 (List.mem_filter.mp hother).2

section Finalist

variable {map : PrefixMap α} {search : CString} {entry other : PrefixMapEntry α}

/-- An exact match that is a finalist replaces everything, and only what is visited behind it
in a later bucket could replace it. -/
theorem Finalist.not_replaced_of_exact (hfinal : map.Finalist search entry)
    (hexact : strlenInt entry.key = strlenInt search) (hother : other ∈ map.candidates search)
    (hhash : hashString entry.key < hashString other.key) : ¬ Replaces search other entry := by
  have hlong := length_le_of_matches (List.mem_filter.mp hother).2
  have hrank := (rank_le_iff search entry other).mp (hfinal.2 other hother)
  rintro (hsame | hshorter)
  · rw [if_pos hsame] at hrank
    rcases hrank with hlt | ⟨-, hle⟩
    · omega
    · exact absurd hle (not_le_of_gt hhash)
  · omega

/-- A finalist that is no exact match is not replaced, as there are none and no shorter
keys. -/
theorem Finalist.not_replaced (hfinal : map.Finalist search entry)
    (hexact : strlenInt entry.key ≠ strlenInt search) (hother : other ∈ map.candidates search) :
    ¬ Replaces search other entry := by
  have hlong := length_le_of_matches (List.mem_filter.mp hfinal.1).2
  have hrank := (rank_le_iff search entry other).mp (hfinal.2 other hother)
  rintro (hsame | hshorter)
  · omega
  · omega

/-- It replaces what is visited before it in an earlier bucket. -/
theorem Finalist.replaces (hfinal : map.Finalist search entry)
    (hexact : strlenInt entry.key ≠ strlenInt search) (hother : other ∈ map.candidates search)
    (hhash : hashString other.key < hashString entry.key) : Replaces search entry other := by
  have hlong := length_le_of_matches (List.mem_filter.mp hfinal.1).2
  rcases (rank_le_iff search entry other).mp (hfinal.2 other hother) with hlt | ⟨hsame, hle⟩
  · exact .inr hlt
  · rw [if_neg (by omega)] at hle
    exact absurd hle (not_le_of_gt hhash)

end Finalist

/-- **A finalist at the head of its chain**, or at the end of it if it is an exact match, is
the answer. -/
theorem WellFormed.findPrefix_of_finalist {map : PrefixMap α} (hmap : map.WellFormed)
    {search : CString} {entry : PrefixMapEntry α} (hfinal : map.Finalist search entry)
    (hplace : if strlenInt entry.key = strlenInt search
      then ∃ rest, map.buckets (hashString entry.key) = rest ++ [entry]
      else ∃ rest, map.buckets (hashString entry.key) = entry :: rest) :
    map.findPrefix search = some entry.value := by
  obtain ⟨front, back, hsplit, hfront, hback⟩ := map.entries_split (hashString entry.key)
  have hmatch := (List.mem_filter.mp hfinal.1).2
  have hcandidate : ∀ other, other ∈ map.entries → matchesPrefix search other = true →
      other ∈ map.candidates search := fun other hother hmatch =>
    List.mem_filter.mpr ⟨hother, hmatch⟩
  have hearlier : ∀ other ∈ front, hashString other.key < hashString entry.key := by
    intro other hother
    obtain ⟨j, hj, hmem⟩ := hfront other hother
    rwa [hmap.placed j other hmem]
  have hlater : ∀ other ∈ back, hashString entry.key < hashString other.key := by
    intro other hother
    obtain ⟨j, hj, hmem⟩ := hback other hother
    rwa [hmap.placed j other hmem]
  split_ifs at hplace with hexact
  · obtain ⟨rest, hchain⟩ := hplace
    rw [hchain] at hsplit
    have hentries : map.entries = (front ++ rest) ++ entry :: back := by simp [hsplit]
    apply findPrefix_of_split hentries hmatch
    · exact fun _ _ _ => .inl hexact
    · intro other hother hmatch'
      exact hfinal.not_replaced_of_exact hexact
        (hcandidate other (by rw [hsplit]; simp [hother]) hmatch') (hlater other hother)
  · obtain ⟨rest, hchain⟩ := hplace
    rw [hchain] at hsplit
    have hentries : map.entries = front ++ entry :: (rest ++ back) := by simp [hsplit]
    apply findPrefix_of_split hentries hmatch
    · intro other hother hmatch'
      exact hfinal.replaces hexact (hcandidate other (by rw [hsplit]; simp [hother]) hmatch')
        (hearlier other hother)
    · intro other hother hmatch'
      refine hfinal.not_replaced hexact (hcandidate other ?_ hmatch')
      rcases List.mem_append.mp hother with hrest | hback
      · rw [hsplit]
        simp [hrest]
      · rw [hsplit]
        simp [hback]

/-- **Each finalist is the answer after some history.** -/
theorem exists_edits_of_finalist {map : PrefixMap α} (hmap : map.WellFormed) {search : CString}
    {entry : PrefixMapEntry α} (hfinal : map.Finalist search entry) :
    ∃ edits, SamePairs (edited edits) map ∧
      (edited edits).findPrefix search = some entry.value := by
  have hentry := (List.mem_filter.mp hfinal.1).1
  obtain ⟨before, after, hsplit⟩ := List.append_of_mem hentry
  have hperm : map.entries.Perm (entry :: (before ++ after)) := by
    rw [hsplit]
    exact List.perm_middle
  have hperm' : map.entries.Perm (before ++ after ++ [entry]) :=
    hperm.trans (List.perm_append_singleton entry (before ++ after)).symm
  have hgo : ∀ order : List (PrefixMapEntry α), map.entries.Perm order →
      (if strlenInt entry.key = strlenInt search
        then ∃ rest, (edited (adds order)).buckets (hashString entry.key) = rest ++ [entry]
        else ∃ rest, (edited (adds order)).buckets (hashString entry.key) = entry :: rest) →
      ∃ edits, SamePairs (edited edits) map ∧
        (edited edits).findPrefix search = some entry.value := by
    intro order horder hplace
    have hdistinct := (horder.map PrefixMapEntry.key).nodup_iff.mp hmap.distinct
    have hwell := wellFormed_edited (adds order)
    have hsame : SamePairs (edited (adds order)) map := by
      intro key
      apply Option.ext
      intro value
      rw [hwell.get_eq_some_iff, hmap.get_eq_some_iff, mem_entries_edited_adds hdistinct,
        horder.mem_iff]
    exact ⟨adds order, hsame, hwell.findPrefix_of_finalist
      ((hsame.finalist_iff hwell hmap search entry).mpr hfinal) hplace⟩
  by_cases hexact : strlenInt entry.key = strlenInt search
  · apply hgo _ hperm
    have hdistinct := (hperm.map PrefixMapEntry.key).nodup_iff.mp hmap.distinct
    rw [if_pos hexact, buckets_edited_adds hdistinct]
    exact ⟨_, by rw [List.filter_cons_of_pos (by simp), List.reverse_cons]⟩
  · apply hgo _ hperm'
    have hdistinct := (hperm'.map PrefixMapEntry.key).nodup_iff.mp hmap.distinct
    rw [if_neg hexact, buckets_edited_adds hdistinct]
    refine ⟨((before ++ after).filter fun other =>
      hashString other.key = hashString entry.key).reverse, ?_⟩
    rw [List.filter_append, List.filter_cons_of_pos (by simp), List.filter_nil,
      List.reverse_append]
    rfl

end PrefixMap

open PrefixMap

/-- **When the answer does not depend on history.** The map that a sequence of adds and
removes leaves answers a prefix as every other sequence does that leaves the same keys and
values, exactly when all finalists have the same value. -/
theorem findPrefix_historyFree_iff {α : Type} (edits : List (MapEdit α)) (search : CString) :
    (∀ edits', SamePairs (edited edits') (edited edits) →
        (edited edits').findPrefix search = (edited edits).findPrefix search) ↔
      (edited edits).Settled search := by
  have hmap := wellFormed_edited edits
  constructor
  · intro hfree first second hfirst hsecond
    obtain ⟨edits₁, hsame₁, hanswer₁⟩ := exists_edits_of_finalist hmap hfirst
    obtain ⟨edits₂, hsame₂, hanswer₂⟩ := exists_edits_of_finalist hmap hsecond
    have hboth := (hfree edits₁ hsame₁).trans (hfree edits₂ hsame₂).symm
    rw [hanswer₁, hanswer₂] at hboth
    exact Option.some.inj hboth
  · intro hsettled edits' hsame
    have hmap' := wellFormed_edited edits'
    rcases hmap'.findPrefix_cases search with ⟨hempty', hnone'⟩ | ⟨entry', hfinal', hsome'⟩
    · rcases hmap.findPrefix_cases search with ⟨-, hnone⟩ | ⟨entry, hfinal, -⟩
      · rw [hnone, hnone']
      · have hmem := ((hsame.finalist_iff hmap' hmap search entry).mpr hfinal).1
        rw [hempty'] at hmem
        cases hmem
    · have hfinal := (hsame.finalist_iff hmap' hmap search entry').mp hfinal'
      rcases hmap.findPrefix_cases search with ⟨hempty, -⟩ | ⟨entry, hfinal₂, hsome⟩
      · rw [Finalist, hempty] at hfinal
        cases hfinal.1
      · rw [hsome, hsome', hsettled entry' entry hfinal hfinal₂]

/-- The keys `xab` and `xbA` are in one bucket. -/
theorem not_historyFree_xab :
    SamePairs (edited [.add (cstr "xab") 1, .add (cstr "xbA") 2])
        (edited [.add (cstr "xbA") 2, .add (cstr "xab") 1]) ∧
      (edited [.add (cstr "xab") 1, .add (cstr "xbA") 2]).findPrefix (cstr "x") ≠
        (edited [.add (cstr "xbA") 2, .add (cstr "xab") 1]).findPrefix (cstr "x") := by
  constructor
  · intro key
    simp only [edited, List.foldl_cons, List.foldl_nil, edit, get_add, get_create]
    have hne : cstr "xab" ≠ cstr "xbA" := by decide +kernel
    split_ifs with hfirst hsecond
    · exact absurd (hsecond.symm.trans hfirst) hne
    · rfl
    · rfl
    · rfl
  · decide +kernel

end BasC
