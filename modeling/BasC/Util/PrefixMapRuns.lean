/-
# Runs of the prefix map

A map made by `prefix_map_create_ex`, with the values that its destroy function has been
called with, driven by any sequence of operations. Two results hold of every such run. It
answers as a finite map does, and the map stays well-formed. And the values added are, at
any time, the values in the map together with those destroyed, each of them once; so when
the map has been freed, every value has been destroyed exactly once.
-/

import BasC.Lib.Refinement
import BasC.Util.PrefixMapEntries
import Mathlib.Data.Finmap
import Mathlib.Tactic.Abel

namespace BasC

open Lib

variable {α υ : Type}

/-- A map and the calls of its destroy function so far. -/
structure OwnedMap (α : Type) where
  map : PrefixMap α
  /-- `value_destroy` is not `NULL`. -/
  valueDestroy : Bool
  destroyed : List α

namespace OwnedMap

/-- `prefix_map_create_ex`. -/
def create (valueDestroy : Bool) : OwnedMap α := ⟨.create, valueDestroy, []⟩

/-- Hand values to the destroy function, if there is one. -/
def destroy (owned : OwnedMap α) (values : List α) (map : PrefixMap α) : OwnedMap α :=
  { owned with
    map := map
    destroyed := if owned.valueDestroy then owned.destroyed ++ values else owned.destroyed }

/-- `prefix_map_add`: the value found under the key is destroyed. -/
def add (owned : OwnedMap α) (key : CString) (value : α) : OwnedMap α :=
  owned.destroy (owned.map.get key).toList (owned.map.add key value)

/-- `prefix_map_remove`: the value found under the key is destroyed. -/
def remove (owned : OwnedMap α) (key : CString) : ℤ × OwnedMap α :=
  ((owned.map.remove key).1,
    owned.destroy (owned.map.get key).toList (owned.map.remove key).2)

/-- `prefix_map_clear`: every value is destroyed. -/
def clear (owned : OwnedMap α) : OwnedMap α :=
  owned.destroy (owned.map.entries.map PrefixMapEntry.value) owned.map.clear

/-- What `prefix_map_free` leaves of the calls of the destroy function. -/
def free (owned : OwnedMap α) : List α := owned.clear.destroyed

end OwnedMap

/-- A call of one of the map's functions. -/
inductive MapOp (α υ : Type)
  | add (key : CString) (value : α)
  | get (key : CString)
  | contains (key : CString)
  | remove (key : CString)
  | size
  | clear
  | forEach (callback : CString → α → υ → ℤ × υ) (userData : υ)

/-- What a call gives back. -/
inductive MapOut (α υ : Type)
  | done
  | value (found : Option α)
  | contained (found : Bool)
  | removed (ret : ℤ)
  | count (size : ℕ)
  | visited (userData : υ)

/-- One call. -/
def mapStep (owned : OwnedMap α) : MapOp α υ → Option (MapOut α υ × OwnedMap α)
  | .add key value => some (.done, owned.add key value)
  | .get key => some (.value (owned.map.get key), owned)
  | .contains key => some (.contained (owned.map.contains key), owned)
  | .remove key => some (.removed (owned.remove key).1, (owned.remove key).2)
  | .size => some (.count owned.map.size, owned)
  | .clear => some (.done, owned.clear)
  | .forEach callback userData => some (.visited (owned.map.forEach callback userData), owned)

/-- A finite map from keys to values. -/
abbrev KeyMap (α : Type) := Finmap fun _ : CString => α

/-- The list shows each key of the map once, with its value. -/
def Enumerates (visits : List (PrefixMapEntry α)) (map : KeyMap α) : Prop :=
  (visits.map PrefixMapEntry.key).Nodup ∧
    ∀ key value, ⟨key, value⟩ ∈ visits ↔ map.lookup key = some value

/-- What a call does to a finite map. -/
def mapSpec (map : KeyMap α) : MapOp α υ → MapOut α υ → KeyMap α → Prop
  | .add key value, out, map' => out = .done ∧ map' = map.insert key value
  | .get key, out, map' => out = .value (map.lookup key) ∧ map' = map
  | .contains key, out, map' => out = .contained (decide (key ∈ map)) ∧ map' = map
  | .remove key, out, map' => out = .removed (if key ∈ map then 1 else 0) ∧ map' = map.erase key
  | .size, out, map' => out = .count map.keys.card ∧ map' = map
  | .clear, out, map' => out = .done ∧ map' = ∅
  | .forEach callback userData, out, map' => map' = map ∧
      ∃ visits, Enumerates visits map ∧ out = .visited (PrefixMap.visit callback visits userData) ∧
        ((∀ key value userData, (callback key value userData).1 = 0) →
          out = .visited (visits.foldl
            (fun userData entry => (callback entry.key entry.value userData).2) userData))

/-- The map is well-formed and answers every look-up as the finite map does. -/
def Represents (owned : OwnedMap α) (map : KeyMap α) : Prop :=
  owned.map.WellFormed ∧ ∀ key, owned.map.get key = map.lookup key

theorem Represents.enumerates {owned : OwnedMap α} {map : KeyMap α} (h : Represents owned map) :
    Enumerates owned.map.entries map :=
  ⟨h.1.distinct, fun key value => by rw [← h.2, h.1.get_eq_some_iff]⟩

/-- The count is the number of keys. -/
theorem Represents.count_eq {owned : OwnedMap α} {map : KeyMap α} (h : Represents owned map) :
    owned.map.count = map.keys.card := by
  have hkeys : map.keys = (owned.map.entries.map PrefixMapEntry.key).toFinset := by
    ext key
    rw [Finmap.mem_keys, Finmap.mem_iff, List.mem_toFinset, List.mem_map]
    constructor
    · rintro ⟨value, hlookup⟩
      exact ⟨⟨key, value⟩, (h.enumerates.2 key value).mpr hlookup, rfl⟩
    · rintro ⟨⟨key, value⟩, hentry, rfl⟩
      exact ⟨value, (h.enumerates.2 key value).mp hentry⟩
  rw [hkeys, List.toFinset_card_of_nodup h.1.distinct, List.length_map, h.1.counted]

theorem Represents.mem_iff {owned : OwnedMap α} {map : KeyMap α} (h : Represents owned map)
    (key : CString) : key ∈ map ↔ (owned.map.get key).isSome := by
  rw [h.2, Finmap.lookup_isSome]

/-- A callback that never stops is called for each entry. -/
theorem visit_eq_foldl {callback : CString → α → υ → ℤ × υ}
    (hgoes : ∀ key value userData, (callback key value userData).1 = 0)
    (visits : List (PrefixMapEntry α)) (userData : υ) :
    PrefixMap.visit callback visits userData = visits.foldl
      (fun userData entry => (callback entry.key entry.value userData).2) userData := by
  induction visits generalizing userData with
  | nil => rfl
  | cons entry visits ih => simp [PrefixMap.visit, hgoes, ih]

/-- **One call refines the finite map.** -/
theorem mapStep_refines :
    Refines (mapStep : OwnedMap α → MapOp α υ → _) mapSpec (fun _ _ => True) Represents := by
  intro owned map op hmap _
  obtain ⟨hwell, hget⟩ := hmap
  cases op with
  | add key value =>
      refine ⟨_, _, _, rfl, ⟨rfl, rfl⟩, hwell.add key value, fun other => ?_⟩
      show (owned.map.add key value).get other = _
      rw [PrefixMap.get_add]
      split_ifs with hother
      · rw [hother, Finmap.lookup_insert]
      · rw [Finmap.lookup_insert_of_ne _ hother, hget]
  | get key => exact ⟨_, _, _, rfl, ⟨by rw [hget], rfl⟩, hwell, hget⟩
  | contains key =>
      refine ⟨_, _, _, rfl, ⟨?_, rfl⟩, hwell, hget⟩
      rw [PrefixMap.contains, MapOut.contained.injEq, Bool.eq_iff_iff, decide_eq_true_iff,
        Represents.mem_iff ⟨hwell, hget⟩]
  | remove key =>
      refine ⟨_, _, _, rfl, ⟨?_, rfl⟩, hwell.remove key, fun other => ?_⟩
      · have hmem := Represents.mem_iff ⟨hwell, hget⟩ key
        show MapOut.removed (owned.map.remove key).1 = _
        rcases owned.map.remove_cases key with ⟨old, hold, -, hret, -⟩ | ⟨hnone, -, hsame⟩
        · rw [if_pos (hmem.mpr (by simp [hold])), hret]
        · rw [if_neg (fun hin => by simp [hnone] at hmem; exact hmem hin), hsame]
      · show (owned.map.remove key).2.get other = _
        rw [hwell.get_remove]
        split_ifs with hother
        · rw [hother, Finmap.lookup_erase]
        · rw [Finmap.lookup_erase_ne hother, hget]
  | size =>
      exact ⟨_, _, _, rfl, ⟨by rw [PrefixMap.size, Represents.count_eq ⟨hwell, hget⟩], rfl⟩,
        hwell, hget⟩
  | clear =>
      exact ⟨_, _, _, rfl, ⟨rfl, rfl⟩, owned.map.wellFormed_clear, fun key => rfl⟩
  | forEach callback userData =>
      refine ⟨_, _, _, rfl, ⟨rfl, owned.map.entries, Represents.enumerates ⟨hwell, hget⟩, rfl,
        fun hgoes => ?_⟩, hwell, hget⟩
      rw [PrefixMap.forEach, visit_eq_foldl hgoes]

/-- **The prefix map refines a finite map.** Any sequence of calls on a new map answers as
the finite map does. The map behind it is well-formed: each entry is in the bucket of its
key's hash, no key occurs twice, and the count is the number of entries. -/
theorem runOps_mapStep_refines (valueDestroy : Bool) (ops : List (MapOp α υ)) :
    ∃ outs owned map, runOps mapStep ops (OwnedMap.create valueDestroy) = some (outs, owned) ∧
      Explains mapSpec ∅ ops outs map ∧ owned.map.WellFormed ∧
      ∀ key, owned.map.get key = map.lookup key := by
  have hnew : Represents (OwnedMap.create valueDestroy : OwnedMap α) ∅ :=
    ⟨PrefixMap.wellFormed_create, fun key => rfl⟩
  exact mapStep_refines.run hnew (admissible_true mapStep ops _)

/-- The value that a call gives to the map. -/
def MapOp.added : MapOp α υ → List α
  | .add _ value => [value]
  | _ => []

/-- The values that a sequence of calls gives to the map. -/
def addedValues (ops : List (MapOp α υ)) : List α := ops.flatMap MapOp.added

/-- The values in the map, in the order of `prefix_map_foreach`. -/
def OwnedMap.live (owned : OwnedMap α) : List α := owned.map.entries.map PrefixMapEntry.value

/-- The destroy function is there, and the values destroyed and the values in the map make
up the values added. -/
def Balances (owned : OwnedMap α) (added : Multiset α) : Prop :=
  owned.valueDestroy = true ∧ owned.map.WellFormed ∧
    (owned.destroyed : Multiset α) + owned.live = added

theorem OwnedMap.destroy_destroyed {owned : OwnedMap α} (hdestroy : owned.valueDestroy = true)
    (values : List α) (map : PrefixMap α) :
    (owned.destroy values map).destroyed = owned.destroyed ++ values := by
  rw [destroy, if_pos hdestroy]

/-- **One call keeps the ledger.** -/
theorem mapStep_balances :
    Refines (mapStep : OwnedMap α → MapOp α υ → _)
      (fun added op _ added' => added' = added + (op.added : Multiset α)) (fun _ _ => True)
      Balances := by
  rintro owned added op ⟨hdestroy, hwell, rfl⟩ -
  cases op with
  | add key value =>
      refine ⟨_, _, _, rfl, rfl, hdestroy, hwell.add key value, ?_⟩
      rw [OwnedMap.add, OwnedMap.destroy_destroyed hdestroy, ← Multiset.coe_add]
      rcases owned.map.add_cases key value with
        ⟨old, others, hget, hentries, hadded, -⟩ | ⟨hget, -, hadded, -⟩
      · have hlive : (owned.live : Multiset α) = old ::ₘ ↑(others.map PrefixMapEntry.value) :=
          Multiset.coe_eq_coe.mpr (hentries.map PrefixMapEntry.value)
        have hlive' : ((owned.destroy [old] (owned.map.add key value)).live : Multiset α) =
            value ::ₘ ↑(others.map PrefixMapEntry.value) :=
          Multiset.coe_eq_coe.mpr (hadded.map PrefixMapEntry.value)
        rw [hget, Option.toList_some, hlive, hlive', MapOp.added, Multiset.coe_singleton,
          Multiset.coe_singleton, ← Multiset.singleton_add, ← Multiset.singleton_add]
        abel
      · have hlive' : ((owned.destroy [] (owned.map.add key value)).live : Multiset α) =
            value ::ₘ ↑owned.live :=
          Multiset.coe_eq_coe.mpr (hadded.map PrefixMapEntry.value)
        rw [hget, Option.toList_none, hlive', MapOp.added, Multiset.coe_singleton,
          Multiset.coe_nil, ← Multiset.singleton_add]
        abel
  | remove key =>
      refine ⟨_, _, _, rfl, rfl, hdestroy, hwell.remove key, ?_⟩
      have hadded : (MapOp.remove key : MapOp α υ).added = [] := rfl
      rw [OwnedMap.remove, OwnedMap.destroy_destroyed hdestroy, ← Multiset.coe_add, hadded,
        Multiset.coe_nil, add_zero]
      rcases owned.map.remove_cases key with ⟨old, hget, hentries, -, -⟩ | ⟨hget, -, hsame⟩
      · have hlive : (owned.live : Multiset α) =
            old ::ₘ ↑(owned.destroy [old] (owned.map.remove key).2).live :=
          Multiset.coe_eq_coe.mpr (hentries.map PrefixMapEntry.value)
        rw [hget, Option.toList_some, hlive, Multiset.coe_singleton, ← Multiset.singleton_add]
        abel
      · rw [hget, hsame, Option.toList_none, Multiset.coe_nil, add_zero]
        rfl
  | clear =>
      refine ⟨_, _, _, rfl, rfl, hdestroy, owned.map.wellFormed_clear, ?_⟩
      have hlive : (owned.destroy owned.live owned.map.clear).live = [] := by
        simp [OwnedMap.live, OwnedMap.destroy, PrefixMap.entries_clear]
      show ((owned.destroy owned.live owned.map.clear).destroyed : Multiset α) +
        (owned.destroy owned.live owned.map.clear).live = _
      rw [hlive, OwnedMap.destroy_destroyed hdestroy, ← Multiset.coe_add]
      rfl
  | get key => exact ⟨_, _, _, rfl, by simp [MapOp.added], hdestroy, hwell, rfl⟩
  | contains key => exact ⟨_, _, _, rfl, by simp [MapOp.added], hdestroy, hwell, rfl⟩
  | size => exact ⟨_, _, _, rfl, by simp [MapOp.added], hdestroy, hwell, rfl⟩
  | forEach callback userData =>
      exact ⟨_, _, _, rfl, by simp [MapOp.added], hdestroy, hwell, rfl⟩

/-- The ledger of a whole run. -/
theorem added_of_explains {ops : List (MapOp α υ)} {outs : List (MapOut α υ)}
    {added added' : Multiset α}
    (hexplains : Explains (fun added (op : MapOp α υ) _ added' =>
      added' = added + (op.added : Multiset α)) added ops outs added') :
    added' = added + (addedValues ops : Multiset α) := by
  induction hexplains with
  | nil added => simp [addedValues]
  | cons hstep hrest ih =>
      subst hstep
      rw [ih, addedValues, addedValues, List.flatMap_cons, ← Multiset.coe_add, add_assoc]

/-- **Every value is destroyed exactly once.** Any sequence of calls that adds fresh values
to a new map with a destroy function can be carried out. When the map is freed behind it,
each value added has been destroyed once, and no other; and no value that can be looked up
or is visited has been destroyed. -/
theorem destroyed_exactly_once (ops : List (MapOp α υ)) (hfresh : (addedValues ops).Nodup) :
    ∃ outs owned, runOps mapStep ops (OwnedMap.create true) = some (outs, owned) ∧
      (owned.free.Nodup ∧ ∀ value, value ∈ owned.free ↔ value ∈ addedValues ops) ∧
      ∀ value, ((∃ key, owned.map.get key = some value) ∨ value ∈ owned.live) →
        value ∉ owned.destroyed := by
  have hnew : Balances (OwnedMap.create true : OwnedMap α) 0 :=
    ⟨rfl, PrefixMap.wellFormed_create, by
      simp [OwnedMap.create, OwnedMap.live, PrefixMap.entries_create]⟩
  obtain ⟨outs, owned, added, hrun, hexplains, hdestroy, hwell, hledger⟩ :=
    mapStep_balances.run hnew (admissible_true mapStep ops _)
  rw [added_of_explains hexplains, zero_add, Multiset.coe_add, Multiset.coe_eq_coe] at hledger
  have hfree : owned.free = owned.destroyed ++ owned.live := by
    rw [OwnedMap.free, OwnedMap.clear, OwnedMap.destroy_destroyed hdestroy]
    rfl
  have hnodup : (owned.destroyed ++ owned.live).Nodup := hledger.nodup_iff.mpr hfresh
  refine ⟨outs, owned, hrun, ⟨by rw [hfree]; exact hnodup, fun value => ?_⟩, ?_⟩
  · rw [hfree]
    exact hledger.mem_iff
  · rintro value hreached hdestroyed
    have hlive : value ∈ owned.live := by
      rcases hreached with ⟨key, hget⟩ | hlive
      · exact List.mem_map.mpr ⟨⟨key, value⟩, (hwell.get_eq_some_iff key value).mp hget, rfl⟩
      · exact hlive
    exact (List.disjoint_of_nodup_append hnodup) hdestroyed hlive

/-- A value replaced, one removed and one cleared. -/
theorem destroyed_exactly_once_example :
    ∃ (outs : List (MapOut ℕ PUnit)) (owned : OwnedMap ℕ),
      runOps mapStep [.add [CChar.star] 1, .add [CChar.star] 2, .add [CChar.dash] 3,
          .remove [CChar.star], .clear] (OwnedMap.create true) = some (outs, owned) ∧
        (owned.free.Nodup ∧ ∀ value, value ∈ owned.free ↔ value ∈ [1, 2, 3]) ∧
        ∀ value, ((∃ key, owned.map.get key = some value) ∨ value ∈ owned.live) →
          value ∉ owned.destroyed :=
  destroyed_exactly_once _ (by decide)

end BasC
