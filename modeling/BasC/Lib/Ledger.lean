/-
# A ledger of memory

Blocks of memory are numbered as they are allocated, and a ledger says how many there have been
and which of them were freed, in order. It balances with the blocks that are held when each block
has been freed or is held, and none of them twice. So nothing is freed twice, nothing that is held
has been freed, and when nothing is held nothing has been lost.
-/

import Mathlib.Algebra.Order.Group.Multiset
import Mathlib.Data.List.Perm.Lattice
import Mathlib.Data.List.Range
import Mathlib.Data.Multiset.Range
import Mathlib.Tactic.Abel

namespace BasC.Lib

/-- The number of the next block, and the blocks that have been freed. -/
structure Ledger where
  next : ℕ
  freed : List ℕ
  deriving DecidableEq

namespace Ledger

/-- Nothing has been allocated. -/
def empty : Ledger := ⟨0, []⟩

/-- So many blocks have been allocated. -/
def grow (ledger : Ledger) (n : ℕ) : Ledger := { ledger with next := ledger.next + n }

/-- These blocks have been freed. -/
def free (ledger : Ledger) (blocks : List ℕ) : Ledger :=
  { ledger with freed := ledger.freed ++ blocks }

/-- Each block has been freed or is held, and none of them twice. -/
def Balances (ledger : Ledger) (held : List ℕ) : Prop :=
  (ledger.freed ++ held).Perm (List.range ledger.next)

variable {ledger : Ledger} {held held' blocks : List ℕ}

theorem balances_empty : empty.Balances [] := .refl _

/-- It does not matter where a block is held. -/
theorem Balances.perm (hledger : ledger.Balances held) (hperm : held'.Perm held) :
    ledger.Balances held' :=
  (hperm.append_left _).trans hledger

/-- New blocks are held. -/
theorem Balances.grow (hledger : ledger.Balances held) (n : ℕ) :
    (ledger.grow n).Balances (held ++ List.range' ledger.next n) := by
  rw [Balances, Ledger.grow, List.range_add, ← List.append_assoc, ← List.range'_eq_map_range]
  exact hledger.append_right _

/-- A new block. -/
theorem Balances.alloc (hledger : ledger.Balances held) :
    (ledger.grow 1).Balances (ledger.next :: held) :=
  (hledger.grow 1).perm (List.perm_append_singleton _ _).symm

/-- Blocks that were held are freed. -/
theorem Balances.free (hledger : ledger.Balances (blocks ++ held)) :
    (ledger.free blocks).Balances held := by
  rw [Balances, Ledger.free, List.append_assoc]
  exact hledger

theorem Balances.nodup (hledger : ledger.Balances held) : (ledger.freed ++ held).Nodup :=
  hledger.nodup_iff.mpr List.nodup_range

/-- **Nothing is freed twice.** -/
theorem Balances.freed_once (hledger : ledger.Balances held) : ledger.freed.Nodup :=
  hledger.nodup.of_append_left

/-- **Nothing that is held has been freed.** -/
theorem Balances.not_freed (hledger : ledger.Balances held) {block : ℕ} (hheld : block ∈ held) :
    block ∉ ledger.freed :=
  fun hfreed => List.disjoint_of_nodup_append hledger.nodup hfreed hheld

/-- **Nothing is lost.** -/
theorem Balances.all_freed (hledger : ledger.Balances []) :
    ledger.freed.Perm (List.range ledger.next) := by
  rwa [Balances, List.append_nil] at hledger

/-- The ledger balances with the blocks that are held, in whatever order. -/
def Holds (ledger : Ledger) (held : Multiset ℕ) : Prop :=
  (ledger.freed : Multiset ℕ) + held = Multiset.range ledger.next

theorem holds_empty : empty.Holds 0 := rfl

theorem holds_coe {ledger : Ledger} {held : List ℕ} : ledger.Holds held ↔ ledger.Balances held := by
  rw [Holds, Balances, Multiset.coe_add, ← Multiset.coe_range, Multiset.coe_eq_coe]

/-- A block that is held has been allocated and has not been freed. -/
theorem Holds.live {ledger : Ledger} {block : ℕ} {held : Multiset ℕ}
    (hledger : ledger.Holds ({block} + held)) : block < ledger.next ∧ block ∉ ledger.freed := by
  have hrange : (ledger.freed : Multiset ℕ) + ({block} + held) = Multiset.range ledger.next :=
    hledger
  have hmem : block ∈ Multiset.range ledger.next := by
    rw [← hrange]
    simp
  refine ⟨Multiset.mem_range.mp hmem, fun hfreed => ?_⟩
  have hnodup := Multiset.nodup_range ledger.next
  rw [← hrange] at hnodup
  have hdisjoint := (Multiset.nodup_add.mp hnodup).2.2
  exact Multiset.disjoint_left.mp hdisjoint (Multiset.mem_coe.mpr hfreed) (by simp)

/-- A new block. -/
theorem Holds.alloc {ledger : Ledger} {held : Multiset ℕ} (hledger : ledger.Holds held) :
    (ledger.grow 1).Holds ({ledger.next} + held) := by
  have hrange : (ledger.freed : Multiset ℕ) + held = Multiset.range ledger.next := hledger
  change (ledger.freed : Multiset ℕ) + ({ledger.next} + held) = Multiset.range (ledger.next + 1)
  rw [Multiset.range_succ, ← hrange, ← Multiset.singleton_add]
  abel

/-- Blocks that were held are freed. -/
theorem Holds.free {ledger : Ledger} {blocks : List ℕ} {held : Multiset ℕ}
    (hledger : ledger.Holds (blocks + held)) : (ledger.free blocks).Holds held := by
  change ((ledger.freed ++ blocks : List ℕ) : Multiset ℕ) + held = Multiset.range ledger.next
  rw [← Multiset.coe_add, add_assoc]
  exact hledger

end Ledger

end BasC.Lib
