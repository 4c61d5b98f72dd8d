/-
# Looking up by prefix

`prefix_map_find_prefix` goes through all chains and keeps a running best: an exact match
takes its place whatever it is, a shorter key that of a longer one. So the answer is the
value of an entry of least rank, where entries rank by the length of their key and then by
their bucket, from the front unless they are exact. Entries of one rank are told apart by
their place in a chain alone, which is a matter of history.

Lengths are `int`s, so a string of `2 ^ 31` bytes and more has another length here than it
has in `strncmp`.
-/

import BasC.Lib.RunningBest
import BasC.Util.PrefixMapRuns
import Mathlib.Data.Prod.Lex

namespace BasC

open Lib

/-- `(int) strlen(s)`. -/
def strlenInt (s : CString) : ℤ :=
  let low := s.length % 0x100000000
  if low < 0x80000000 then low else low - 0x100000000

/-- An `int` converted to `size_t`. -/
def intToSize (n : ℤ) : ℕ := if 0 ≤ n then n.toNat else (n + 0x10000000000000000).toNat

/-- `strncmp(a, b, n) == 0`. -/
def strncmpEqual (a b : CString) (n : ℕ) : Bool := a.take n = b.take n

namespace PrefixMap

variable {α : Type}

/-- The test for an entry that has the prefix. -/
def matchesPrefix (search : CString) (entry : PrefixMapEntry α) : Bool :=
  strlenInt search ≤ strlenInt entry.key &&
    strncmpEqual entry.key search (intToSize (strlenInt search))

/-- The body of the loop over a chain, with `best_match` and `best_match_len`. -/
def searchStep (search : CString) (best : Option α × ℤ) (entry : PrefixMapEntry α) :
    Option α × ℤ :=
  let keyLen := strlenInt entry.key
  if matchesPrefix search entry then
    if best.1.isNone ∨ keyLen = strlenInt search ∨ best.2 > keyLen ∧ keyLen ≥ strlenInt search then
      (some entry.value, keyLen)
    else best
  else best

/-- `prefix_map_find_prefix`. -/
def findPrefix (map : PrefixMap α) (search : CString) : Option α :=
  ((List.finRange prefixMapSize).foldl
    (fun best i => (map.buckets i).foldl (searchStep search) best) (none, 0)).1

/-- An entry takes the place of the best one so far. -/
def Replaces (search : CString) (entry best : PrefixMapEntry α) : Prop :=
  strlenInt entry.key = strlenInt search ∨ strlenInt entry.key < strlenInt best.key

instance (search : CString) : DecidableRel (Replaces search : PrefixMapEntry α → _ → Prop) :=
  fun entry best => inferInstanceAs (Decidable
    (strlenInt entry.key = strlenInt search ∨ strlenInt entry.key < strlenInt best.key))

/-- The entries that have the prefix, in the order in which they are visited. -/
def candidates (map : PrefixMap α) (search : CString) : List (PrefixMapEntry α) :=
  map.entries.filter (matchesPrefix search)

/-- What the loop remembers of the best entry so far. -/
def remembered (best : Option (PrefixMapEntry α)) : Option α × ℤ :=
  (best.map PrefixMapEntry.value, best.elim 0 fun entry => strlenInt entry.key)

theorem length_le_of_matches {search : CString} {entry : PrefixMapEntry α}
    (hmatch : matchesPrefix search entry = true) :
    strlenInt search ≤ strlenInt entry.key := by
  simp only [matchesPrefix, Bool.and_eq_true, decide_eq_true_eq] at hmatch
  exact hmatch.1

theorem searchStep_of_not_matches {search : CString} {entry : PrefixMapEntry α}
    (hmatch : matchesPrefix search entry = false) (best : Option α × ℤ) :
    searchStep search best entry = best := by
  simp only [searchStep, hmatch, Bool.false_eq_true, if_false]

theorem searchStep_of_matches {search : CString} {entry : PrefixMapEntry α}
    (hmatch : matchesPrefix search entry = true) (best : Option (PrefixMapEntry α)) :
    searchStep search (remembered best) entry =
      remembered (List.argAux (Replaces search) best entry) := by
  have hlong := length_le_of_matches hmatch
  cases best with
  | none =>
      rw [searchStep, if_pos hmatch]
      exact if_pos (.inl rfl)
  | some last =>
      rw [searchStep, if_pos hmatch, argAux_some]
      by_cases hreplaces : Replaces search entry last
      · rw [if_pos hreplaces]
        exact if_pos (.inr (hreplaces.imp_right fun hlt => ⟨hlt, hlong⟩))
      · rw [if_neg hreplaces]
        refine if_neg ?_
        rintro (hnone | hcond)
        · cases hnone
        · exact hreplaces (hcond.imp_right And.left)

/-- The loop keeps the value and the length of the best entry. -/
theorem foldl_searchStep (search : CString) (entries : List (PrefixMapEntry α))
    (best : Option (PrefixMapEntry α)) :
    entries.foldl (searchStep search) (remembered best) =
      remembered
        ((entries.filter (matchesPrefix search)).foldl (List.argAux (Replaces search)) best) := by
  induction entries generalizing best with
  | nil => rfl
  | cons entry entries ih =>
      rw [List.foldl_cons]
      cases hmatch : matchesPrefix search entry with
      | true =>
          rw [List.filter_cons_of_pos hmatch, List.foldl_cons, searchStep_of_matches hmatch, ih]
      | false =>
          rw [List.filter_cons_of_neg (by simp [hmatch]), searchStep_of_not_matches hmatch, ih]

theorem findPrefix_eq (map : PrefixMap α) (search : CString) :
    map.findPrefix search =
      ((map.candidates search).foldl (List.argAux (Replaces search)) none).map
        PrefixMapEntry.value := by
  have hfold := congrArg Prod.fst (foldl_searchStep search map.entries none)
  rw [entries, List.foldl_flatMap] at hfold
  exact hfold

/-- Entries rank by the length of their key and then by their bucket: the first bucket wins,
and among exact matches the last one. -/
def rank (search : CString) (entry : PrefixMapEntry α) : ℤ ×ₗ ℤ :=
  toLex (strlenInt entry.key,
    if strlenInt entry.key = strlenInt search then -(hashString entry.key : ℤ)
    else (hashString entry.key : ℤ))

theorem rank_le_iff (search : CString) (a b : PrefixMapEntry α) :
    rank search a ≤ rank search b ↔
      strlenInt a.key < strlenInt b.key ∨ strlenInt a.key = strlenInt b.key ∧
        if strlenInt b.key = strlenInt search then hashString b.key ≤ hashString a.key
        else hashString a.key ≤ hashString b.key := by
  rw [rank, rank, Prod.Lex.toLex_le_toLex]
  refine or_congr_right (and_congr_right fun hlength => ?_)
  dsimp only at hlength ⊢
  rw [hlength]
  split_ifs
  · rw [Fin.le_def]
    omega
  · rw [Fin.le_def]
    omega

/-- Where buckets are visited in order, the search goes with the ranks. -/
theorem ranks_of_hash_le {search : CString} {earlier later : PrefixMapEntry α}
    (hearlier : matchesPrefix search earlier = true)
    (hhash : hashString earlier.key ≤ hashString later.key) :
    Ranks (Replaces search) (rank search) earlier later := by
  have hlong := length_le_of_matches hearlier
  constructor
  · rintro (hexact | hshorter)
    · rw [rank_le_iff]
      rcases hlong.lt_or_eq with hlt | heq
      · exact .inl (hexact ▸ hlt)
      · exact .inr ⟨hexact.trans heq, by rwa [if_pos heq.symm]⟩
    · exact (rank_le_iff search later earlier).mpr (.inl hshorter)
  · intro hkept
    rw [Replaces, not_or, not_lt] at hkept
    rw [rank_le_iff]
    rcases hkept.2.lt_or_eq with hlt | heq
    · exact .inl hlt
    · exact .inr ⟨heq, by rwa [if_neg hkept.1]⟩

/-- The entries are visited bucket by bucket. -/
theorem WellFormed.pairwise_entries {map : PrefixMap α} (hmap : map.WellFormed) :
    map.entries.Pairwise fun a b => hashString a.key ≤ hashString b.key := by
  rw [entries, List.pairwise_flatMap]
  constructor
  · intro i _
    refine List.Pairwise.imp_mem.mpr (List.pairwise_of_forall fun a b ha hb => ?_)
    rw [hmap.placed i a ha, hmap.placed i b hb]
  · refine (List.pairwise_lt_finRange prefixMapSize).imp fun hlt a ha b hb => ?_
    rw [hmap.placed _ a ha, hmap.placed _ b hb]
    exact hlt.le

/-- An entry with the prefix that ranks before all others or as they do. -/
def Finalist (map : PrefixMap α) (search : CString) (entry : PrefixMapEntry α) : Prop :=
  entry ∈ map.candidates search ∧
    ∀ other ∈ map.candidates search, rank search entry ≤ rank search other

/-- **The answer is the value of a finalist**, and `NULL` without entries that have the
prefix. -/
theorem WellFormed.findPrefix_cases {map : PrefixMap α} (hmap : map.WellFormed)
    (search : CString) :
    map.candidates search = [] ∧ map.findPrefix search = none ∨
      ∃ entry, map.Finalist search entry ∧ map.findPrefix search = some entry.value := by
  have hranks : (map.candidates search).Pairwise (Ranks (Replaces search) (rank search)) := by
    refine List.Pairwise.imp_mem.mpr ?_
    refine (hmap.pairwise_entries.sublist List.filter_sublist).imp fun hhash hearlier _ => ?_
    exact ranks_of_hash_le (List.mem_filter.mp hearlier).2 hhash
  rw [findPrefix_eq]
  rcases foldl_argAux_cases hranks with ⟨hempty, hnone⟩ | ⟨entry, hmem, hsome, hleast⟩
  · exact .inl ⟨hempty, by rw [hnone]; rfl⟩
  · exact .inr ⟨entry, ⟨hmem, hleast⟩, by rw [hsome]; rfl⟩

/-- The length of the string fits an `int`. -/
def StrlenFits (s : CString) : Prop := s.length < 0x80000000

theorem StrlenFits.strlenInt_eq {s : CString} (hfits : StrlenFits s) : strlenInt s = s.length := by
  unfold StrlenFits at hfits
  have hlow : s.length % 0x100000000 = s.length := Nat.mod_eq_of_lt (by omega)
  simp only [strlenInt, hlow, if_pos hfits]

/-- With lengths that fit, the entries that have the prefix are those whose key starts with
it. -/
theorem matchesPrefix_iff {search : CString} {entry : PrefixMapEntry α}
    (hsearch : StrlenFits search) (hkey : StrlenFits entry.key) :
    matchesPrefix search entry = true ↔ search <+: entry.key := by
  have hsize : intToSize (search.length : ℤ) = search.length := if_pos (Int.natCast_nonneg _)
  simp only [matchesPrefix, hsearch.strlenInt_eq, hkey.strlenInt_eq, hsize, strncmpEqual,
    Bool.and_eq_true, decide_eq_true_eq, Int.ofNat_le, List.take_length]
  rw [List.prefix_iff_eq_take, eq_comm (a := search)]
  refine and_iff_right_of_imp fun htake => ?_
  have hlength := congrArg List.length htake
  rw [List.length_take] at hlength
  omega

/-- What `prefix_map_find_prefix` is to find: a key that is the prefix itself, or else a
shortest one that starts with it. -/
structure FindsBest (map : PrefixMap α) (search : CString) : Prop where
  none_iff : map.findPrefix search = none ↔
    ∀ key, search <+: key → map.contains key = false
  exact_match : ∀ value, map.get search = some value → map.findPrefix search = some value
  shortest : map.get search = none → ∀ value, map.findPrefix search = some value →
    ∃ key, search <+: key ∧ map.get key = some value ∧
      ∀ other, search <+: other → map.contains other = true → key.length ≤ other.length

theorem WellFormed.contains_iff {map : PrefixMap α} (hmap : map.WellFormed) (key : CString) :
    map.contains key = true ↔ ∃ value, ⟨key, value⟩ ∈ map.entries := by
  rw [contains, Option.isSome_iff_exists]
  exact exists_congr fun value => hmap.get_eq_some_iff key value

/-- **In a well-formed map of strings that fit, the best match is found.** -/
theorem WellFormed.findsBest {map : PrefixMap α} (hmap : map.WellFormed)
    (hkeys : ∀ key, map.contains key = true → StrlenFits key) {search : CString}
    (hsearch : StrlenFits search) : map.FindsBest search := by
  have hfits : ∀ entry ∈ map.entries, StrlenFits entry.key := fun entry hentry =>
    hkeys _ ((hmap.contains_iff _).mpr ⟨_, hentry⟩)
  have hcandidate : ∀ key value, ⟨key, value⟩ ∈ map.candidates search ↔
      search <+: key ∧ map.get key = some value := by
    intro key value
    rw [candidates, List.mem_filter, and_comm, hmap.get_eq_some_iff]
    refine and_congr_left fun hentry => ?_
    exact matchesPrefix_iff hsearch (hfits _ hentry)
  rcases hmap.findPrefix_cases search with ⟨hempty, hnone⟩ | ⟨⟨key, value⟩, ⟨hmem, hleast⟩, hsome⟩
  · have hall : ∀ key, search <+: key → map.get key = none := by
      intro key hstarts
      apply Option.eq_none_iff_forall_ne_some.mpr
      intro value hget
      have hmem := (hcandidate key value).mpr ⟨hstarts, hget⟩
      rw [hempty] at hmem
      cases hmem
    refine ⟨iff_of_true hnone fun key hstarts => ?_, fun value hget => ?_, fun _ value hfound => ?_⟩
    · rw [contains, hall key hstarts]
      rfl
    · rw [hall search List.prefix_rfl] at hget
      cases hget
    · rw [hnone] at hfound
      cases hfound
  · obtain ⟨hstarts, hget⟩ := (hcandidate key value).mp hmem
    have hshort : ∀ other value', search <+: other → map.get other = some value' →
        key.length ≤ other.length := by
      intro other value' hother hget'
      have hrank := hleast _ ((hcandidate other value').mpr ⟨hother, hget'⟩)
      rw [rank_le_iff, (hfits _ (List.mem_filter.mp hmem).1).strlenInt_eq,
        (hfits ⟨other, value'⟩ ((hmap.get_eq_some_iff other value').mp hget')).strlenInt_eq]
        at hrank
      dsimp only at hrank
      omega
    refine ⟨iff_of_false (by rw [hsome]; exact Option.some_ne_none _) fun hno => ?_, ?_, ?_⟩
    · have hcontains := hno key hstarts
      rw [contains, hget] at hcontains
      cases hcontains
    · intro value' hget'
      -- a key that is the prefix itself is the only one of its length
      have hle := hshort search value' List.prefix_rfl hget'
      obtain rfl := hstarts.eq_of_length_le hle
      rw [hsome, ← hget', hget]
    · intro _ value' hfound
      obtain rfl := Option.some.inj (hsome.symm.trans hfound)
      refine ⟨key, hstarts, hget, fun other hother hcontains => ?_⟩
      obtain ⟨value', hget'⟩ := Option.isSome_iff_exists.mp hcontains
      exact hshort other value' hother hget'

end PrefixMap

open PrefixMap

section Runs

variable {α υ : Type}

/-- **`prefix_map_find_prefix` finds the best match.** In every map that calls on a new one
lead to, with keys whose length fits an `int`, a prefix whose length fits is answered by
`NULL` exactly if no key starts with it, by its own value if it is a key, and else by the
value of a shortest key that starts with it. -/
theorem runOps_findsBest (valueDestroy : Bool) (ops : List (MapOp α υ)) :
    ∃ outs owned, runOps mapStep ops (OwnedMap.create valueDestroy) = some (outs, owned) ∧
      ((∀ key, owned.map.contains key = true → StrlenFits key) →
        ∀ search, StrlenFits search → owned.map.FindsBest search) := by
  have hnew : Represents (OwnedMap.create valueDestroy : OwnedMap α) ∅ :=
    ⟨wellFormed_create, fun key => rfl⟩
  obtain ⟨outs, owned, map, hrun, -, hmap⟩ :=
    mapStep_refines.run hnew (admissible_true mapStep ops _)
  exact ⟨outs, owned, hrun, fun hkeys search hsearch => hmap.1.findsBest hkeys hsearch⟩

end Runs

/-- A map with one key. -/
theorem mem_entries_add_create {key : CString} {value : ℕ} {entry : PrefixMapEntry ℕ}
    (hentry : entry ∈ (PrefixMap.create.add key value).entries) : entry.key = key := by
  rcases add_cases PrefixMap.create key value with ⟨old, -, hold, -⟩ | ⟨-, -, hadded, -⟩
  · cases hold
  · rw [entries_create] at hadded
    rw [List.mem_singleton.mp (hadded.mem_iff.mp hentry)]

/-- A map with the keys `list`, `listen` and `ls`, after a fourth has been removed, finds what
begins with `l`. -/
theorem runOps_findsBest_list :
    ∃ (outs : List (MapOut ℕ PUnit)) (owned : OwnedMap ℕ),
      runOps mapStep [.add (cstr "listen") 1, .add (cstr "l") 2, .add (cstr "list") 3,
          .add (cstr "ls") 4, .remove (cstr "l")] (OwnedMap.create true) = some (outs, owned) ∧
        owned.map.FindsBest (cstr "l") := by
  obtain ⟨outs, owned, hrun, hbest⟩ := runOps_findsBest (υ := PUnit) true
    [.add (cstr "listen") 1, .add (cstr "l") 2, .add (cstr "list") 3, .add (cstr "ls") 4,
      .remove (cstr "l")]
  refine ⟨outs, owned, hrun, hbest (fun key hcontains => ?_) (cstr "l") ?_⟩
  · obtain ⟨-, rfl⟩ := Prod.mk.inj (Option.some.inj hrun)
    have hwell := (((wellFormed_create.add (cstr "listen") 1).add (cstr "l") 2).add
      (cstr "list") 3).add (cstr "ls") 4
    have hget := Option.isSome_iff_ne_none.mp hcontains
    change (((((create.add (cstr "listen") 1).add (cstr "l") 2).add (cstr "list") 3).add
      (cstr "ls") 4).remove (cstr "l")).2.get key ≠ none at hget
    rw [hwell.get_remove, get_add, get_add, get_add, get_add] at hget
    have hshort : key.length ≤ 6 := by
      split_ifs at hget with hremoved hls hlist hlisten
      · exact absurd rfl hget
      · exact hls ▸ by decide
      · exact hlist ▸ by decide
      · exact hlisten ▸ by decide
      · exact absurd rfl hget
    exact hshort.trans_lt (by decide)
  · show (cstr "l").length < 0x80000000
    decide

/-- A key of `2 ^ 31` bytes has a negative length for `prefix_map_find_prefix`, and no prefix
finds it. -/
theorem not_findsBest_long :
    ∃ (outs : List (MapOut ℕ PUnit)) (owned : OwnedMap ℕ),
      runOps mapStep [.add (List.replicate 2147483648 CChar.star) 1] (OwnedMap.create true) =
          some (outs, owned) ∧
        ¬ owned.map.FindsBest [] := by
  refine ⟨_, _, rfl, fun hbest => ?_⟩
  have hlong : strlenInt (List.replicate 2147483648 CChar.star) = -2147483648 := by
    rw [strlenInt, List.length_replicate]
    decide
  generalize List.replicate 2147483648 CChar.star = key at hbest hlong
  have hmap := (wellFormed_create : (PrefixMap.create : PrefixMap ℕ).WellFormed).add key 1
  have hempty : (PrefixMap.create.add key 1).candidates [] = [] := by
    apply List.filter_eq_nil_iff.mpr
    intro entry hentry hmatch
    have hle := length_le_of_matches hmatch
    rw [mem_entries_add_create hentry, hlong] at hle
    exact absurd hle (by decide)
  have hnone : (PrefixMap.create.add key 1).findPrefix [] = none := by
    rw [findPrefix_eq, hempty]
    rfl
  have hcontains := hbest.none_iff.mp hnone key List.nil_prefix
  rw [contains] at hcontains
  show False
  have hget : (PrefixMap.create.add key 1).get key = some 1 := by
    rw [get_add, if_pos rfl]
  simp only [OwnedMap.add, OwnedMap.create, OwnedMap.destroy, hget] at hcontains
  cases hcontains

end BasC
