/-
# The entries of the prefix map

An operation changes at most one chain, so what it does to the map can be said by what it
does to the multiset of all entries: `prefix_map_add` replaces the entry of its key or adds
one, `prefix_map_remove` takes one away. A map is well-formed when every entry is in the
bucket of its key, no key occurs twice and the count is right; then the entries are what
can be looked up, and every operation keeps it so.
-/

import BasC.Util.PrefixMap
import Mathlib.Data.List.Nodup
import Mathlib.Data.List.Perm.Basic

namespace BasC

namespace PrefixMap

variable {α : Type}

/-- No entry of the chain has the key. -/
def Lacks (key : CString) (chain : List (PrefixMapEntry α)) : Prop :=
  ∀ entry ∈ chain, entry.key ≠ key

/-- A chain lacks the key, or is cut at the first entry that has it. -/
theorem lacks_or_cut (key : CString) (chain : List (PrefixMapEntry α)) :
    Lacks key chain ∨ ∃ before old after, chain = before ++ ⟨key, old⟩ :: after ∧
      Lacks key before := by
  induction chain with
  | nil => exact .inl (by simp [Lacks])
  | cons entry chain ih =>
      by_cases hkey : entry.key = key
      · exact .inr ⟨[], entry.value, chain, by simp [← hkey], by simp [Lacks]⟩
      · rcases ih with hlacks | ⟨before, old, after, rfl, hbefore⟩
        · exact .inl (List.forall_mem_cons.mpr ⟨hkey, hlacks⟩)
        · exact .inr ⟨entry :: before, old, after, rfl, List.forall_mem_cons.mpr ⟨hkey, hbefore⟩⟩

theorem chain_of_lacks {key : CString} {chain : List (PrefixMapEntry α)}
    (hlacks : Lacks key chain) :
    chainGet key chain = none ∧ (∀ value, chainReplace key value chain = none) ∧
      chainRemove key chain = none := by
  induction chain with
  | nil => exact ⟨rfl, fun _ => rfl, rfl⟩
  | cons entry chain ih =>
      obtain ⟨hkey, hrest⟩ := List.forall_mem_cons.mp hlacks
      obtain ⟨hget, hreplace, hremove⟩ := ih hrest
      simp [chainGet, chainReplace, chainRemove, hkey, hget, hreplace, hremove]

theorem chain_of_cut {key : CString} {before : List (PrefixMapEntry α)}
    (hbefore : Lacks key before) (old : α) (after : List (PrefixMapEntry α)) :
    chainGet key (before ++ ⟨key, old⟩ :: after) = some old ∧
      (∀ value, chainReplace key value (before ++ ⟨key, old⟩ :: after) =
        some (before ++ ⟨key, value⟩ :: after)) ∧
      chainRemove key (before ++ ⟨key, old⟩ :: after) = some (before ++ after) := by
  induction before with
  | nil => simp [chainGet, chainReplace, chainRemove]
  | cons entry before ih =>
      obtain ⟨hkey, hrest⟩ := List.forall_mem_cons.mp hbefore
      obtain ⟨hget, hreplace, hremove⟩ := ih hrest
      simp [chainGet, chainReplace, chainRemove, hkey, hget, hreplace, hremove]

theorem mem_entries_iff (map : PrefixMap α) (entry : PrefixMapEntry α) :
    entry ∈ map.entries ↔ ∃ i, entry ∈ map.buckets i := by
  simp [entries]

/-- The entries outside one bucket do not depend on it. -/
theorem exists_entries_perm (buckets : Fin prefixMapSize → List (PrefixMapEntry α))
    (i : Fin prefixMapSize) :
    ∃ others, (∀ count, (⟨buckets, count⟩ : PrefixMap α).entries.Perm (buckets i ++ others)) ∧
      ∀ chain count, (⟨Function.update buckets i chain, count⟩ : PrefixMap α).entries.Perm
        (chain ++ others) := by
  have hperm : (List.finRange prefixMapSize).Perm (i :: (List.finRange prefixMapSize).erase i) :=
    List.perm_cons_erase (List.mem_finRange i)
  refine ⟨((List.finRange prefixMapSize).erase i).flatMap buckets, fun _ => ?_,
    fun chain _ => ?_⟩
  · exact hperm.flatMap_right buckets
  · have hsame : ∀ j ∈ (List.finRange prefixMapSize).erase i,
        Function.update buckets i chain j = buckets j := by
      intro j hj
      have hne := ((List.nodup_finRange prefixMapSize).mem_erase_iff.mp hj).1
      exact Function.update_of_ne hne chain buckets
    have hupdated := hperm.flatMap_right (Function.update buckets i chain)
    rwa [List.flatMap_cons, Function.update_self, List.flatMap_congr hsame] at hupdated

/-- **What `prefix_map_add` does.** It replaces the value of the entry that `prefix_map_get`
finds, or there is none and it adds one. -/
theorem add_cases (map : PrefixMap α) (key : CString) (value : α) :
    (∃ old others, map.get key = some old ∧ map.entries.Perm (⟨key, old⟩ :: others) ∧
        (map.add key value).entries.Perm (⟨key, value⟩ :: others) ∧
        (map.add key value).count = map.count) ∨
      (map.get key = none ∧ Lacks key (map.buckets (hashString key)) ∧
        (map.add key value).entries.Perm (⟨key, value⟩ :: map.entries) ∧
        (map.add key value).count = map.count + 1) := by
  obtain ⟨others, hentries, hupdate⟩ := exists_entries_perm map.buckets (hashString key)
  rcases lacks_or_cut key (map.buckets (hashString key)) with
    hlacks | ⟨before, old, after, hchain, hbefore⟩
  · obtain ⟨hget, hreplace, -⟩ := chain_of_lacks hlacks
    have hadd : map.add key value =
        ⟨Function.update map.buckets (hashString key)
          (⟨key, value⟩ :: map.buckets (hashString key)), map.count + 1⟩ := by
      simp [add, hreplace]
    refine .inr ⟨hget, hlacks, ?_, by rw [hadd]⟩
    rw [hadd]
    exact (hupdate _ _).trans (((hentries map.count).symm).cons _)
  · obtain ⟨hget, hreplace, -⟩ := chain_of_cut hbefore old after
    rw [← hchain] at hget hreplace
    have hadd : map.add key value =
        ⟨Function.update map.buckets (hashString key) (before ++ ⟨key, value⟩ :: after),
          map.count⟩ := by
      simp [add, hreplace]
    refine .inl ⟨old, before ++ after ++ others, hget, ?_, ?_, by rw [hadd]⟩
    · have hall := hentries map.count
      rw [hchain] at hall
      exact hall.trans (List.perm_middle.append_right others)
    · rw [hadd]
      exact (hupdate _ _).trans (List.perm_middle.append_right others)

/-- **What `prefix_map_remove` does.** It takes away the entry that `prefix_map_get` finds,
or there is none and nothing happens. -/
theorem remove_cases (map : PrefixMap α) (key : CString) :
    (∃ old, map.get key = some old ∧ map.entries.Perm (⟨key, old⟩ :: (map.remove key).2.entries) ∧
        (map.remove key).1 = 1 ∧ (map.remove key).2.count = map.count - 1) ∨
      (map.get key = none ∧ Lacks key (map.buckets (hashString key)) ∧
        map.remove key = (0, map)) := by
  obtain ⟨others, hentries, hupdate⟩ := exists_entries_perm map.buckets (hashString key)
  rcases lacks_or_cut key (map.buckets (hashString key)) with
    hlacks | ⟨before, old, after, hchain, hbefore⟩
  · obtain ⟨hget, -, hremove⟩ := chain_of_lacks hlacks
    exact .inr ⟨hget, hlacks, by simp [remove, hremove]⟩
  · obtain ⟨hget, -, hremove⟩ := chain_of_cut hbefore old after
    rw [← hchain] at hget hremove
    have hremoved : map.remove key =
        (1, ⟨Function.update map.buckets (hashString key) (before ++ after), map.count - 1⟩) := by
      simp [remove, hremove]
    refine .inl ⟨old, hget, ?_, by rw [hremoved], by rw [hremoved]⟩
    rw [hremoved]
    have hall := hentries map.count
    rw [hchain] at hall
    exact hall.trans ((List.perm_middle.append_right others).trans
      ((hupdate _ _).symm.cons _))

/-- Each entry is in the bucket of its key, no key occurs twice, and the count is right. -/
structure WellFormed (map : PrefixMap α) : Prop where
  placed : ∀ i, ∀ entry ∈ map.buckets i, hashString entry.key = i
  distinct : (map.entries.map PrefixMapEntry.key).Nodup
  counted : map.count = map.entries.length

/-- An entry found in the map is in the chain that is searched for its key. -/
theorem WellFormed.mem_bucket {map : PrefixMap α} (hmap : map.WellFormed)
    {entry : PrefixMapEntry α} (hentry : entry ∈ map.entries) :
    entry ∈ map.buckets (hashString entry.key) := by
  obtain ⟨i, hi⟩ := (map.mem_entries_iff entry).mp hentry
  rwa [hmap.placed i entry hi]

theorem WellFormed.lacks_entries {map : PrefixMap α} (hmap : map.WellFormed) {key : CString}
    (hlacks : Lacks key (map.buckets (hashString key))) : Lacks key map.entries := by
  rintro entry hentry rfl
  exact hlacks entry (hmap.mem_bucket hentry) rfl

/-- **The entries are what can be looked up.** -/
theorem WellFormed.get_eq_some_iff {map : PrefixMap α} (hmap : map.WellFormed) (key : CString)
    (value : α) : map.get key = some value ↔ ⟨key, value⟩ ∈ map.entries := by
  rcases lacks_or_cut key (map.buckets (hashString key)) with
    hlacks | ⟨before, old, after, hchain, hbefore⟩
  · have hget : map.get key = none := (chain_of_lacks hlacks).1
    rw [hget]
    refine iff_of_false (by simp) fun hentry => ?_
    exact hmap.lacks_entries hlacks _ hentry rfl
  · have hget : map.get key = some old := by
      rw [get, hchain]
      exact (chain_of_cut hbefore old after).1
    have hold : ⟨key, old⟩ ∈ map.entries := by
      rw [mem_entries_iff]
      exact ⟨hashString key, by simp [hchain]⟩
    rw [hget]
    constructor
    · intro heq
      rwa [← Option.some.inj heq]
    · intro hentry
      have hsame := List.inj_on_of_nodup_map hmap.distinct hold hentry rfl
      rw [(PrefixMapEntry.mk.inj hsame).2]

theorem WellFormed.get_eq_none_iff {map : PrefixMap α} (hmap : map.WellFormed) (key : CString) :
    map.get key = none ↔ Lacks key map.entries := by
  rw [Option.eq_none_iff_forall_ne_some]
  constructor
  · rintro hnone ⟨key', value⟩ hentry rfl
    exact hnone value ((hmap.get_eq_some_iff _ value).mpr hentry)
  · intro hlacks value hget
    exact hlacks _ ((hmap.get_eq_some_iff key value).mp hget) rfl

theorem entries_create : (create : PrefixMap α).entries = [] :=
  List.flatMap_eq_nil_iff.mpr fun _ _ => rfl

theorem entries_clear (map : PrefixMap α) : map.clear.entries = [] := entries_create

theorem wellFormed_create : (create : PrefixMap α).WellFormed where
  placed := by simp [create]
  distinct := by simp [entries_create]
  counted := by simp [create, entries]

theorem wellFormed_clear (map : PrefixMap α) : map.clear.WellFormed := wellFormed_create

theorem mem_buckets_add {map : PrefixMap α} {key : CString} {value : α} {i : Fin prefixMapSize}
    {entry : PrefixMapEntry α} (hentry : entry ∈ (map.add key value).buckets i) :
    entry ∈ map.buckets i ∨ i = hashString key ∧ entry.key = key := by
  by_cases hi : i = hashString key
  · subst hi
    rcases lacks_or_cut key (map.buckets (hashString key)) with
      hlacks | ⟨before, old, after, hchain, hbefore⟩
    · obtain ⟨-, hreplace, -⟩ := chain_of_lacks hlacks
      simp only [add, hreplace, Function.update_self, List.mem_cons] at hentry
      rcases hentry with rfl | hentry
      · exact .inr ⟨rfl, rfl⟩
      · exact .inl hentry
    · obtain ⟨-, hreplace, -⟩ := chain_of_cut hbefore old after
      simp only [add, hchain, hreplace, Function.update_self, List.mem_append,
        List.mem_cons] at hentry
      rw [hchain]
      rcases hentry with hentry | rfl | hentry
      · exact .inl (by simp [hentry])
      · exact .inr ⟨rfl, rfl⟩
      · exact .inl (by simp [hentry])
  · refine .inl ?_
    unfold add at hentry
    split at hentry <;> simpa [hi] using hentry

theorem mem_buckets_remove {map : PrefixMap α} {key : CString} {i : Fin prefixMapSize}
    {entry : PrefixMapEntry α} (hentry : entry ∈ (map.remove key).2.buckets i) :
    entry ∈ map.buckets i := by
  by_cases hi : i = hashString key
  · subst hi
    rcases lacks_or_cut key (map.buckets (hashString key)) with
      hlacks | ⟨before, old, after, hchain, hbefore⟩
    · obtain ⟨-, -, hremove⟩ := chain_of_lacks hlacks
      simpa [remove, hremove] using hentry
    · obtain ⟨-, -, hremove⟩ := chain_of_cut hbefore old after
      simp only [remove, hchain, hremove, Function.update_self, List.mem_append] at hentry
      rw [hchain]
      rcases hentry with hentry | hentry <;> simp [hentry]
  · unfold remove at hentry
    split at hentry
    · simpa [hi] using hentry
    · exact hentry

theorem WellFormed.add {map : PrefixMap α} (hmap : map.WellFormed) (key : CString) (value : α) :
    (map.add key value).WellFormed := by
  have hplaced : ∀ i, ∀ entry ∈ (map.add key value).buckets i, hashString entry.key = i := by
    intro i entry hentry
    rcases mem_buckets_add hentry with hentry | ⟨rfl, hkey⟩
    · exact hmap.placed i entry hentry
    · rw [hkey]
  rcases add_cases map key value with
    ⟨old, others, -, hentries, hadded, hcount⟩ | ⟨-, hlacks, hadded, hcount⟩
  · refine ⟨hplaced, ?_, ?_⟩
    · have hkeys := (hentries.map PrefixMapEntry.key).nodup_iff.mp hmap.distinct
      exact (hadded.map PrefixMapEntry.key).nodup_iff.mpr (by simpa using hkeys)
    · rw [hcount, hmap.counted, hentries.length_eq, hadded.length_eq, List.length_cons,
        List.length_cons]
  · refine ⟨hplaced, ?_, ?_⟩
    · refine (hadded.map PrefixMapEntry.key).nodup_iff.mpr ?_
      rw [List.map_cons, List.nodup_cons]
      refine ⟨fun hkey => ?_, hmap.distinct⟩
      obtain ⟨entry, hentry, hsame⟩ := List.mem_map.mp hkey
      exact hmap.lacks_entries hlacks entry hentry hsame
    · rw [hcount, hmap.counted, hadded.length_eq, List.length_cons]

theorem WellFormed.remove {map : PrefixMap α} (hmap : map.WellFormed) (key : CString) :
    (map.remove key).2.WellFormed := by
  rcases remove_cases map key with ⟨old, -, hentries, -, hcount⟩ | ⟨-, -, hsame⟩
  · refine ⟨fun i entry hentry => hmap.placed i entry (mem_buckets_remove hentry), ?_, ?_⟩
    · have hkeys := (hentries.map PrefixMapEntry.key).nodup_iff.mp hmap.distinct
      rw [List.map_cons, List.nodup_cons] at hkeys
      exact hkeys.2
    · rw [hcount, hmap.counted, hentries.length_eq, List.length_cons, Nat.add_sub_cancel]
  · rw [hsame]
    exact hmap

/-- **Removing a key changes the answer for that key only.** -/
theorem WellFormed.get_remove {map : PrefixMap α} (hmap : map.WellFormed) (key other : CString) :
    (map.remove key).2.get other = if other = key then none else map.get other := by
  rcases remove_cases map key with ⟨old, -, hentries, -, -⟩ | ⟨hget, -, hsame⟩
  · have hdistinct := (hentries.map PrefixMapEntry.key).nodup_iff.mp hmap.distinct
    rw [List.map_cons, List.nodup_cons] at hdistinct
    split_ifs with hother
    · rw [hother, (hmap.remove key).get_eq_none_iff]
      intro entry hentry hkey
      exact hdistinct.1 (List.mem_map.mpr ⟨entry, hentry, hkey⟩)
    · apply Option.ext
      intro value
      rw [(hmap.remove key).get_eq_some_iff, hmap.get_eq_some_iff, hentries.mem_iff,
        List.mem_cons, PrefixMapEntry.mk.injEq]
      simp [hother]
  · rw [hsame]
    split_ifs with hother
    · rw [hother, hget]
    · rfl

end PrefixMap

end BasC
