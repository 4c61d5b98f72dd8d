/-
# Programs over lists of strings

The calls of a program with any number of lists, those that sort a list, remove its
duplicates or join it among them. Such a program is one over sequences of strings.
-/

import BasC.Base.TextListSequence

namespace BasC

open Lib ListCode

namespace TextCode

variable {t : TextCode}

/-- A call of a program with several lists of strings. -/
inductive TextOp (t : TextCode)
  | store (op : StoreOp t.list)
  | sort (handle : ℕ) (sorter : t.list.SlotSorter)
  | unique (handle : ℕ) (sorter : t.list.SlotSorter)
  | join (handle : ℕ) (separator : Option (List t.Unit)) (alloc : Alloc t.list.Slot)

/-- What it returns. -/
inductive TextOut (t : TextCode)
  | store (out : StoreOut t.list)
  | done
  | text (joined : Option (List t.Unit))

/-- One call. -/
def textStep (lists : List t.list.Items) :
    TextOp t → Option (TextOut t × List t.list.Items)
  | .store op => (storeStep lists op).map fun r => (.store r.1, r.2)
  | .sort handle sorter =>
      lists[handle]?.bind fun list =>
        (t.list.sort list sorter).map fun sorted => (.done, lists.set handle sorted)
  | .unique handle sorter =>
      lists[handle]?.bind fun list =>
        (t.list.unique list sorter).map fun r => (.done, lists.set handle r.2)
  | .join handle separator alloc =>
      lists[handle]?.bind fun list =>
        (t.join list separator alloc).map fun joined => (.text joined, lists)

/-- What a call does to the sequences. -/
def textSpec (seqs : List (List t.list.Entry)) :
    TextOp t → TextOut t → List (List t.list.Entry) → Prop
  | .store op, out, seqs' => ∃ out', storeSpec seqs op out' seqs' ∧ out = .store out'
  | .sort handle _, out, seqs' =>
      ∃ entries sorted, seqs[handle]? = some entries ∧ sorted.Perm entries ∧ Sorted sorted ∧
        out = .done ∧ seqs' = seqs.set handle sorted
  | .unique handle _, out, seqs' =>
      ∃ entries sorted, seqs[handle]? = some entries ∧ sorted.Perm entries ∧ Sorted sorted ∧
        out = .done ∧ seqs' = seqs.set handle (sorted.destutter Differ)
  | .join handle separator _, out, seqs' =>
      ∃ entries, seqs[handle]? = some entries ∧
        out = .text (some ((separator.getD []).intercalate (entries.map Prod.fst))) ∧
        seqs' = seqs

/-- The lists are there, the allocations succeed, and no byte count wraps. -/
def TextAllowed (lists : List t.list.Items) : TextOp t → Prop
  | .store op => StoreAllowed lists op
  | .sort handle _ => ∃ list, lists[handle]? = some list
  | .unique handle _ => ∃ list, lists[handle]? = some list
  | .join handle separator alloc =>
      alloc.malloc = true ∧ ∃ list, lists[handle]? = some list ∧ JoinFits list separator

/-- **One call on lists of strings.** -/
theorem textStep_refines :
    Refines (textStep : List t.list.Items → TextOp t → _) textSpec TextAllowed StandFor := by
  intro lists seqs op hstand hallowed
  cases op with
  | store op =>
      obtain ⟨out, lists', seqs', hstep, hspec, hstand'⟩ :=
        storeStep_refines lists seqs op hstand hallowed
      exact ⟨_, _, _, by rw [textStep, hstep, Option.map_some], ⟨out, hspec, rfl⟩, hstand'⟩
  | sort handle sorter =>
      obtain ⟨list, hhandle⟩ := hallowed
      obtain ⟨entries, hentries, hlist⟩ := hstand.lookup hhandle
      obtain ⟨sorted, list', hsort, hlist', hperm, hsorted⟩ := sort_eq hlist sorter
      exact ⟨_, _, _, by rw [textStep, hhandle, Option.bind_some, hsort, Option.map_some],
        ⟨entries, sorted, hentries, hperm, hsorted, rfl, rfl⟩, hstand.set hlist'⟩
  | unique handle sorter =>
      obtain ⟨list, hhandle⟩ := hallowed
      obtain ⟨entries, hentries, hlist⟩ := hstand.lookup hhandle
      obtain ⟨freed, sorted, list', hunique, hlist', hperm, hsorted⟩ := unique_eq hlist sorter
      exact ⟨_, _, _, by rw [textStep, hhandle, Option.bind_some, hunique, Option.map_some],
        ⟨entries, sorted, hentries, hperm, hsorted, rfl, rfl⟩, hstand.set hlist'⟩
  | join handle separator alloc =>
      obtain ⟨hmalloc, list, hhandle, hfits⟩ := hallowed
      obtain ⟨entries, hentries, hlist⟩ := hstand.lookup hhandle
      exact ⟨_, _, _, by
          rw [textStep, hhandle, Option.bind_some, join_eq hlist hmalloc hfits, Option.map_some],
        ⟨entries, hentries, rfl, rfl⟩, hstand⟩

end TextCode

end BasC
