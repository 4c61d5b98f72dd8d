/-
# The prefix map

`prefix_map.c`: a hash table with 128 buckets and chaining. A bucket is the list of its
entries from the head of the chain. Values are not `NULL`, so a `NULL` answer means that
the key is absent.
-/

import BasC.Base.CString
import Mathlib.Data.List.FinRange
import Mathlib.Logic.Function.Basic

namespace BasC

/-- `PREFIX_MAP_SIZE`. -/
def prefixMapSize : ℕ := 128

/-- The value of a `char`, which is signed, after its conversion to `unsigned int`. -/
def CChar.toUnsigned (c : CChar) : UInt32 :=
  if c.toNat < 128 then UInt32.ofNat c.toNat else UInt32.ofNat c.toNat - 256

/-- `hash_string`. -/
def hashString (str : CString) : Fin prefixMapSize :=
  let hash : UInt32 := str.foldl (fun hash c => ((hash <<< 5) + hash) + c.toUnsigned) 5381
  ⟨hash.toNat % prefixMapSize, Nat.mod_lt _ (by decide)⟩

/-- `entry_t`, without the link to the next entry. -/
structure PrefixMapEntry (α : Type) where
  key : CString
  value : α

/-- `prefix_map`. -/
structure PrefixMap (α : Type) where
  buckets : Fin prefixMapSize → List (PrefixMapEntry α)
  count : ℕ

namespace PrefixMap

variable {α : Type}

/-- `prefix_map_create_ex`. -/
def create : PrefixMap α := ⟨fun _ => [], 0⟩

/-- The value of the first entry of a chain with the key. -/
def chainGet (key : CString) : List (PrefixMapEntry α) → Option α
  | [] => none
  | entry :: chain => if entry.key = key then some entry.value else chainGet key chain

/-- Replace the value of the first entry of a chain with the key; `none` when there is no
such entry. -/
def chainReplace (key : CString) (value : α) :
    List (PrefixMapEntry α) → Option (List (PrefixMapEntry α))
  | [] => none
  | entry :: chain =>
      if entry.key = key then some ({ entry with value := value } :: chain)
      else (chainReplace key value chain).map (entry :: ·)

/-- `prefix_map_add`. -/
def add (map : PrefixMap α) (key : CString) (value : α) : PrefixMap α :=
  match chainReplace key value (map.buckets (hashString key)) with
  | some chain => { map with buckets := Function.update map.buckets (hashString key) chain }
  | none =>
      { buckets := Function.update map.buckets (hashString key)
          (⟨key, value⟩ :: map.buckets (hashString key))
        count := map.count + 1 }

/-- `prefix_map_get`. -/
def get (map : PrefixMap α) (key : CString) : Option α :=
  chainGet key (map.buckets (hashString key))

/-- `prefix_map_contains`. -/
def contains (map : PrefixMap α) (key : CString) : Bool := (map.get key).isSome

/-- Unlink the first entry of a chain with the key; `none` when there is no such entry. -/
def chainRemove (key : CString) :
    List (PrefixMapEntry α) → Option (List (PrefixMapEntry α))
  | [] => none
  | entry :: chain =>
      if entry.key = key then some chain else (chainRemove key chain).map (entry :: ·)

/-- `prefix_map_remove`: the return value, and the map. -/
def remove (map : PrefixMap α) (key : CString) : ℤ × PrefixMap α :=
  match chainRemove key (map.buckets (hashString key)) with
  | some chain =>
      (1, { buckets := Function.update map.buckets (hashString key) chain
            count := map.count - 1 })
  | none => (0, map)

/-- `prefix_map_size`. -/
def size (map : PrefixMap α) : ℕ := map.count

/-- `prefix_map_clear`: every bucket is set to `NULL`. -/
def clear (_map : PrefixMap α) : PrefixMap α := ⟨fun _ => [], 0⟩

/-- The entries in the order in which `prefix_map_foreach` and `prefix_map_clear` meet
them. -/
def entries (map : PrefixMap α) : List (PrefixMapEntry α) :=
  (List.finRange prefixMapSize).flatMap map.buckets

/-- Call back for one entry after the other, until a call does not return 0. -/
def visit {υ : Type} (callback : CString → α → υ → ℤ × υ) :
    List (PrefixMapEntry α) → υ → υ
  | [], userData => userData
  | entry :: rest, userData =>
      let called := callback entry.key entry.value userData
      if called.1 ≠ 0 then called.2 else visit callback rest called.2

/-- `prefix_map_foreach`: what the calls make of the user data. -/
def forEach {υ : Type} (map : PrefixMap α) (callback : CString → α → υ → ℤ × υ)
    (userData : υ) : υ :=
  visit callback map.entries userData

@[simp]
theorem get_create (key : CString) : (create : PrefixMap α).get key = none := rfl

theorem chainGet_chainReplace {key : CString} {value : α} {chain replaced : List (PrefixMapEntry α)}
    (hreplace : chainReplace key value chain = some replaced) (other : CString) :
    chainGet other replaced = if other = key then some value else chainGet other chain := by
  induction chain generalizing replaced with
  | nil => simp [chainReplace] at hreplace
  | cons entry chain ih =>
      by_cases hkey : entry.key = key
      · obtain rfl : { entry with value := value } :: chain = replaced := by
          simpa [chainReplace, hkey] using hreplace
        by_cases hother : other = key
        · simp [chainGet, hkey, hother]
        · simp [chainGet, hkey, hother, Ne.symm hother]
      · simp only [chainReplace, hkey, if_false, Option.map_eq_some_iff] at hreplace
        obtain ⟨tail, htail, rfl⟩ := hreplace
        by_cases hentry : entry.key = other
        · have hother : other ≠ key := fun heq => hkey (hentry.trans heq)
          simp [chainGet, hentry, hother]
        · simp [chainGet, hentry, ih htail]

/-- **Adding a key changes the answer for that key only.** -/
theorem get_add (map : PrefixMap α) (key other : CString) (value : α) :
    (map.add key value).get other = if other = key then some value else map.get other := by
  unfold add get
  by_cases hhash : hashString other = hashString key
  · cases hreplace : chainReplace key value (map.buckets (hashString key)) with
    | some chain =>
        simp only [hhash, Function.update_self]
        exact chainGet_chainReplace hreplace other
    | none =>
        simp [hhash, chainGet, eq_comm]
  · have hother : other ≠ key := fun heq => hhash (congrArg hashString heq)
    cases hreplace : chainReplace key value (map.buckets (hashString key)) <;>
      simp [hhash, hother]

end PrefixMap

end BasC
