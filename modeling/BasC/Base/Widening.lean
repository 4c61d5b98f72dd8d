/-
# Narrow and wide lists of strings

A program over `string_list` and the same program over `wstring_list`, with the bytes of its
strings widened to units of the same value, answer alike: both are programs over sequences of
strings, and widening keeps the order of strings.
-/

import BasC.Base.TextListRuns
import Mathlib.Data.List.InsertIdx

namespace BasC

open Lib ListCode

/-- The units of one file as units of the other, with their values. -/
structure Widening (t w : TextCode) where
  widen : t.Unit → w.Unit
  value_widen : ∀ c, w.value (widen c) = t.value c

namespace Widening

open TextCode

variable {t w : TextCode} (f : Widening t w)

def text (text : List t.Unit) : List w.Unit := text.map f.widen

def entry (entry : t.list.Entry) : w.list.Entry := (f.text entry.1, ())

def slot (slot : t.list.Slot) : w.list.Slot := ⟨slot.name.map f.text, ()⟩

def seqs (seqs : List (List t.list.Entry)) : List (List w.list.Entry) :=
  seqs.map (List.map f.entry)

def listOut : ListOut t.list → ListOut w.list
  | .done => .done
  | .ret value => .ret value
  | .item slot => .item (slot.map f.slot)
  | .size count => .size count
  | .index value => .index value

def out : TextOut t → TextOut w
  | .store (.list handle) => .store (.list handle)
  | .store (.out out) => .store (.out (f.listOut out))
  | .done => .done
  | .text joined => .text (joined.map f.text)

/-- The same call on a list, with widened strings and its own allocations, which succeed. -/
inductive ListCall : ListOp t.list → ListOp w.list → Prop
  | append (name : List t.Unit) {alloc : Alloc t.list.Slot} {alloc' : Alloc w.list.Slot}
      (halloc : Succeeds alloc) (halloc' : Succeeds alloc') :
      ListCall (.append name () alloc) (.append (f.text name) () alloc')
  | insert (index : ℕ) (name : List t.Unit) {alloc : Alloc t.list.Slot}
      {alloc' : Alloc w.list.Slot} (halloc : Succeeds alloc) (halloc' : Succeeds alloc') :
      ListCall (.insert index name () alloc) (.insert index (f.text name) () alloc')
  | remove (index : ℕ) : ListCall (.remove index) (.remove index)
  | clear : ListCall .clear .clear
  | resize (newCapacity : ℕ) {alloc : Alloc t.list.Slot} {alloc' : Alloc w.list.Slot}
      (halloc : Succeeds alloc) (halloc' : Succeeds alloc') :
      ListCall (.resize newCapacity alloc) (.resize newCapacity alloc')
  | get (index : ℕ) : ListCall (.get index) (.get index)
  | size : ListCall .size .size
  | find (text : List t.Unit) : ListCall (.find text) (.find (f.text text))

/-- The same call, also as to the sorting, which is any that `qsort` may do. -/
inductive Call : TextOp t → TextOp w → Prop
  | create (initialCapacity : ℕ) {alloc : Alloc t.list.Slot} {alloc' : Alloc w.list.Slot}
      (halloc : Succeeds alloc) (halloc' : Succeeds alloc') :
      Call (.store (.create initialCapacity alloc)) (.store (.create initialCapacity alloc'))
  | copy (handle : ℕ) {alloc : Alloc t.list.Slot} {alloc' : Alloc w.list.Slot}
      {allocs : ℕ → Alloc t.list.Slot} {allocs' : ℕ → Alloc w.list.Slot}
      (halloc : Succeeds alloc) (halloc' : Succeeds alloc')
      (hallocs : ∀ i, Succeeds (allocs i)) (hallocs' : ∀ i, Succeeds (allocs' i)) :
      Call (.store (.copy handle alloc allocs)) (.store (.copy handle alloc' allocs'))
  | on (handle : ℕ) {op : ListOp t.list} {op' : ListOp w.list} (hop : f.ListCall op op') :
      Call (.store (.on handle op)) (.store (.on handle op'))
  | sort (handle : ℕ) (sorter : t.list.SlotSorter) (sorter' : w.list.SlotSorter) :
      Call (.sort handle sorter) (.sort handle sorter')
  | unique (handle : ℕ) (sorter : t.list.SlotSorter) (sorter' : w.list.SlotSorter) :
      Call (.unique handle sorter) (.unique handle sorter')
  | join (handle : ℕ) (separator : Option (List t.Unit)) {alloc : Alloc t.list.Slot}
      {alloc' : Alloc w.list.Slot} (halloc : alloc.malloc = true)
      (halloc' : alloc'.malloc = true) :
      Call (.join handle separator alloc) (.join handle (separator.map f.text) alloc')

/-- As many items, and the same strings, widened. -/
def SameList (list : t.list.Items) (list' : w.list.Items) : Prop :=
  w.list.size list' = t.list.size list ∧
    w.list.names list' = (t.list.names list).map (List.map (Option.map f.text))

/-- Both runs come to their end, the second answers as the first, widened, and so do the
lists that they leave agree. -/
def Agrees (ops : List (TextOp t)) (ops' : List (TextOp w)) : Prop :=
  ∃ outs lists lists', runOps textStep ops [] = some (outs, lists) ∧
    runOps textStep ops' [] = some (outs.map f.out, lists') ∧
    List.Forall₂ f.SameList lists lists'

theorem compare_text (a b : List t.Unit) :
    w.list.compare (f.text a) (f.text b) = t.list.compare a b :=
  compareUnits_map f.value_widen a b

theorem text_injective : Function.Injective f.text := by
  intro a b hab
  have hzero : w.list.compare (f.text a) (f.text b) = 0 :=
    (w.list.compare_eq_zero_iff _ _).mpr hab
  rw [compare_text] at hzero
  exact (t.list.compare_eq_zero_iff a b).mp hzero

theorem differ_entry (a b : t.list.Entry) :
    Differ (f.entry a) (f.entry b) ↔ Differ a b := by
  unfold Differ
  rw [entry, entry, compare_text]

theorem sorted_entry {entries : List t.list.Entry} (hsorted : Sorted entries) :
    Sorted (entries.map f.entry) := by
  rw [Sorted, List.pairwise_map]
  exact hsorted.imp fun hle => by rwa [entry, entry, compare_text]

/-- The sorted rearrangement of a sequence is unique. -/
theorem eq_of_sorted {first second : List w.list.Entry} (hperm : first.Perm second)
    (hfirst : Sorted first) (hsecond : Sorted second) : first = second := by
  refine List.Perm.eq_of_pairwise (fun a b _ _ hab hba => ?_) hfirst hsecond hperm
  exact Prod.ext (compareUnits_antisymm w.value_injective hab hba) rfl

/-- So sorting and widening can be done in either order. -/
theorem sorted_eq_map {entries sorted : List t.list.Entry} {sorted' : List w.list.Entry}
    (hperm : sorted.Perm entries) (hsorted : Sorted sorted)
    (hperm' : sorted'.Perm (entries.map f.entry)) (hsorted' : Sorted sorted') :
    sorted' = sorted.map f.entry :=
  eq_of_sorted (hperm'.trans (hperm.map f.entry).symm) hsorted' (f.sorted_entry hsorted)

theorem destutter_entry (entries : List t.list.Entry) :
    (entries.map f.entry).destutter Differ = (entries.destutter Differ).map f.entry :=
  (List.map_destutter fun a _ b _ => (f.differ_entry a b).symm).symm

theorem text_intercalate (separator : List t.Unit) (names : List (List t.Unit)) :
    f.text (separator.intercalate names) =
      (f.text separator).intercalate (names.map f.text) := by
  induction names with
  | nil => rfl
  | cons name names ih =>
      cases names with
      | nil => simp
      | cons next names =>
          rw [List.map_cons] at ih
          rw [List.intercalate_cons_cons, List.map_cons, List.map_cons,
            List.intercalate_cons_cons, ← ih]
          simp only [text, List.map_append]

/-- No item in front of the first one with a string has that string. -/
theorem length_le_of_first {before before' after after' : List w.list.Entry}
    {entry entry' : w.list.Entry} {name : List w.Unit}
    (hsplit : before ++ entry :: after = before' ++ entry' :: after') (hentry : entry.1 = name)
    (hbefore' : ∀ other ∈ before', other.1 ≠ name) : before'.length ≤ before.length := by
  by_contra hlt
  have hget : before'[before.length]? = some entry := by
    have hat := congrArg (·[before.length]?) hsplit
    simpa [List.getElem?_append_left (Nat.lt_of_not_le hlt)] using hat.symm
  exact hbefore' entry (List.mem_of_getElem? hget) hentry

/-- The first index of a string is unique. -/
theorem findsFirst_unique {entries : List w.list.Entry} {name : List w.Unit} {index index' : ℤ}
    (hfinds : FindsFirst entries name index) (hfinds' : FindsFirst entries name index') :
    index = index' := by
  rcases hfinds with ⟨before, entry, after, rfl, hentry, hbefore, rfl⟩ | ⟨hnone, rfl⟩
  · rcases hfinds' with ⟨before', entry', after', hsplit, hentry', hbefore', rfl⟩ | ⟨hnone', -⟩
    · have hle := length_le_of_first hsplit hentry hbefore'
      have hge := length_le_of_first hsplit.symm hentry' hbefore
      omega
    · exact absurd hentry (hnone' entry (by simp))
  · rcases hfinds' with ⟨before', entry', after', rfl, hentry', -⟩ | ⟨-, rfl⟩
    · exact absurd hentry' (hnone entry' (by simp))
    · rfl

/-- A string is found where the widened one is found. -/
theorem findsFirst_entry {entries : List t.list.Entry} {name : List t.Unit} {index : ℤ}
    (hfinds : FindsFirst entries name index) :
    FindsFirst (entries.map f.entry) (f.text name) index := by
  rcases hfinds with ⟨before, entry, after, rfl, rfl, hbefore, rfl⟩ | ⟨hnone, rfl⟩
  · refine .inl ⟨before.map f.entry, f.entry entry, after.map f.entry, by simp, rfl, ?_, by simp⟩
    intro other hother
    obtain ⟨source, hsource, rfl⟩ := List.mem_map.mp hother
    exact fun heq => hbefore source hsource (f.text_injective heq)
  · refine .inr ⟨fun other hother => ?_, rfl⟩
    obtain ⟨source, hsource, rfl⟩ := List.mem_map.mp hother
    exact fun heq => hnone source hsource (f.text_injective heq)

/-- Widening commutes with what a call does to a sequence. -/
theorem listSpec_widen {op : ListOp t.list} {op' : ListOp w.list} (hop : f.ListCall op op')
    {entries next : List t.list.Entry} {next' : List w.list.Entry} {out : ListOut t.list}
    {out' : ListOut w.list} (hspec : listSpec entries op out next)
    (hspec' : listSpec (entries.map f.entry) op' out' next') :
    out' = f.listOut out ∧ next' = next.map f.entry := by
  cases hop with
  | append name =>
      obtain ⟨rfl, rfl⟩ := hspec
      obtain ⟨rfl, rfl⟩ := hspec'
      exact ⟨rfl, by rw [List.map_append]; rfl⟩
  | insert index name =>
      rw [listSpec] at hspec hspec'
      rw [List.length_map] at hspec'
      split_ifs at hspec hspec' with hindex
      · obtain ⟨rfl, rfl⟩ := hspec
        obtain ⟨rfl, rfl⟩ := hspec'
        exact ⟨rfl, by rw [List.map_insertIdx]; rfl⟩
      · obtain ⟨rfl, rfl⟩ := hspec
        obtain ⟨rfl, rfl⟩ := hspec'
        exact ⟨rfl, rfl⟩
  | remove index =>
      rw [listSpec] at hspec hspec'
      rw [List.length_map] at hspec'
      split_ifs at hspec hspec' with hindex
      · obtain ⟨rfl, rfl⟩ := hspec
        obtain ⟨rfl, rfl⟩ := hspec'
        exact ⟨rfl, List.eraseIdx_map _ _ _⟩
      · obtain ⟨rfl, rfl⟩ := hspec
        obtain ⟨rfl, rfl⟩ := hspec'
        exact ⟨rfl, rfl⟩
  | clear =>
      obtain ⟨rfl, rfl⟩ := hspec
      obtain ⟨rfl, rfl⟩ := hspec'
      exact ⟨rfl, rfl⟩
  | resize newCapacity =>
      obtain ⟨rfl, rfl⟩ := hspec
      obtain ⟨rfl, rfl⟩ := hspec'
      exact ⟨rfl, List.map_take.symm⟩
  | get index =>
      obtain ⟨rfl, rfl⟩ := hspec
      obtain ⟨rfl, rfl⟩ := hspec'
      refine ⟨?_, rfl⟩
      rw [List.getElem?_map, listOut, Option.map_map, Option.map_map]
      rfl
  | size =>
      obtain ⟨rfl, rfl⟩ := hspec
      obtain ⟨rfl, rfl⟩ := hspec'
      exact ⟨by rw [List.length_map]; rfl, rfl⟩
  | find name =>
      obtain ⟨⟨index, rfl, hfinds⟩, rfl⟩ := hspec
      obtain ⟨⟨index', rfl, hfinds'⟩, rfl⟩ := hspec'
      obtain rfl := findsFirst_unique (f.findsFirst_entry hfinds) hfinds'
      exact ⟨rfl, rfl⟩

theorem seqs_getElem? (seqs : List (List t.list.Entry)) (handle : ℕ) :
    (f.seqs seqs)[handle]? = (seqs[handle]?).map (List.map f.entry) :=
  List.getElem?_map

/-- The sequence that a call finds. -/
theorem entries_eq {seqs : List (List t.list.Entry)} {handle : ℕ} {entries : List t.list.Entry}
    {entries' : List w.list.Entry} (hentries : seqs[handle]? = some entries)
    (hentries' : (f.seqs seqs)[handle]? = some entries') : entries' = entries.map f.entry := by
  rw [seqs_getElem?, hentries, Option.map_some] at hentries'
  exact (Option.some.inj hentries').symm

/-- Widening commutes with what a call does to the sequences. -/
theorem textSpec_widen {op : TextOp t} {op' : TextOp w} (hop : f.Call op op')
    {seqs next : List (List t.list.Entry)} {next' : List (List w.list.Entry)} {out : TextOut t}
    {out' : TextOut w} (hspec : textSpec seqs op out next)
    (hspec' : textSpec (f.seqs seqs) op' out' next') :
    out' = f.out out ∧ next' = f.seqs next := by
  cases hop with
  | create initialCapacity =>
      obtain ⟨_, ⟨rfl, rfl⟩, rfl⟩ := hspec
      obtain ⟨_, ⟨rfl, rfl⟩, rfl⟩ := hspec'
      exact ⟨by rw [Widening.seqs, List.length_map]; rfl, by simp [Widening.seqs]⟩
  | copy handle =>
      obtain ⟨_, ⟨entries, hentries, rfl, rfl⟩, rfl⟩ := hspec
      obtain ⟨_, ⟨entries', hentries', rfl, rfl⟩, rfl⟩ := hspec'
      obtain rfl := f.entries_eq hentries hentries'
      exact ⟨by rw [Widening.seqs, List.length_map]; rfl, by simp [Widening.seqs]⟩
  | on handle hop =>
      obtain ⟨_, ⟨entries, out, after, hentries, hlist, rfl, rfl⟩, rfl⟩ := hspec
      obtain ⟨_, ⟨entries', out', after', hentries', hlist', rfl, rfl⟩, rfl⟩ := hspec'
      obtain rfl := f.entries_eq hentries hentries'
      obtain ⟨rfl, rfl⟩ := f.listSpec_widen hop hlist hlist'
      exact ⟨rfl, List.map_set.symm⟩
  | sort handle =>
      obtain ⟨entries, sorted, hentries, hperm, hsorted, rfl, rfl⟩ := hspec
      obtain ⟨entries', sorted', hentries', hperm', hsorted', rfl, rfl⟩ := hspec'
      obtain rfl := f.entries_eq hentries hentries'
      obtain rfl := f.sorted_eq_map hperm hsorted hperm' hsorted'
      exact ⟨rfl, List.map_set.symm⟩
  | unique handle =>
      obtain ⟨entries, sorted, hentries, hperm, hsorted, rfl, rfl⟩ := hspec
      obtain ⟨entries', sorted', hentries', hperm', hsorted', rfl, rfl⟩ := hspec'
      obtain rfl := f.entries_eq hentries hentries'
      obtain rfl := f.sorted_eq_map hperm hsorted hperm' hsorted'
      rw [destutter_entry]
      exact ⟨rfl, List.map_set.symm⟩
  | join handle separator =>
      obtain ⟨entries, hentries, rfl, rfl⟩ := hspec
      obtain ⟨entries', hentries', rfl, rfl⟩ := hspec'
      obtain rfl := f.entries_eq hentries hentries'
      have hseparator : (separator.map f.text).getD [] = f.text (separator.getD []) := by
        cases separator <;> rfl
      have hnames : (entries.map f.entry).map Prod.fst = (entries.map Prod.fst).map f.text := by
        rw [List.map_map, List.map_map]
        rfl
      rw [hseparator, hnames, ← text_intercalate]
      exact ⟨rfl, rfl⟩

/-- Lists that stand for a sequence and the widened one have the same strings. -/
theorem sameList_of_represents {list : t.list.Items} {list' : w.list.Items}
    {entries : List t.list.Entry} (hlist : Represents list entries)
    (hlist' : Represents list' (entries.map f.entry)) : f.SameList list list' := by
  have hnames := names_eq hlist
  have hnames' := names_eq hlist'
  obtain ⟨free, rfl, -⟩ := hlist
  obtain ⟨free', rfl, -⟩ := hlist'
  refine ⟨by simp [ListCode.size], ?_⟩
  rw [hnames, hnames', Option.map_some, List.map_map, List.map_map]
  rfl

/-- **A program over lists of strings and the widened program agree**, when no byte count of
either wraps. -/
theorem agrees_of_admissible {ops : List (TextOp t)} {ops' : List (TextOp w)}
    (hcalls : List.Forall₂ f.Call ops ops') (hops : Admissible textStep TextAllowed ops [])
    (hops' : Admissible textStep TextAllowed ops' []) : f.Agrees ops ops' := by
  have hnew : StandFor ([] : List t.list.Items) [] := ⟨rfl, by simp⟩
  have hnew' : StandFor ([] : List w.list.Items) [] := ⟨rfl, by simp⟩
  obtain ⟨outs, lists, seqs, hrun, hexplains, hstand⟩ := textStep_refines.run hnew hops
  obtain ⟨outs', lists', seqs', hrun', hexplains', hstand'⟩ := textStep_refines.run hnew' hops'
  have hwidened : Explains textSpec (f.seqs []) ops' outs' seqs' := hexplains'
  obtain ⟨rfl, rfl⟩ := hexplains.inStep hwidened hcalls f.textSpec_widen
  have hlength : lists.length = lists'.length := by
    rw [hstand.length_eq, hstand'.length_eq, Widening.seqs, List.length_map]
  refine ⟨outs, lists, lists', hrun, hrun', List.forall₂_iff_get.mpr ⟨hlength, ?_⟩⟩
  intro i hi hi'
  obtain ⟨entries, hentries, hlist⟩ := hstand.lookup (List.getElem?_eq_getElem hi)
  have hentry : (f.seqs seqs)[i]? = some (entries.map f.entry) := by
    rw [seqs_getElem?, hentries, Option.map_some]
  exact f.sameList_of_represents hlist
    (hstand'.represents i _ _ (List.getElem?_eq_getElem hi') hentry)

end Widening

namespace TextCode

variable {t : TextCode}

/-- Every allocation succeeds, also one of zero bytes. -/
def plainAlloc (t : TextCode) : Alloc t.list.Slot := ⟨true, true, false, true, fun _ => t.list.null⟩

theorem succeeds_plainAlloc (t : TextCode) : Succeeds t.plainAlloc := ⟨rfl, rfl, rfl⟩

theorem create_one (t : TextCode) :
    t.list.create 1 t.plainAlloc = some (some (listOf [] 16)) := by
  rw [ListCode.create, plainAlloc, if_pos rfl, if_pos Nat.one_pos]
  cases hloop : t.clearsByLoop <;>
    simp [ensureCapacity, growCapacity, startCapacity, listDefaultCapacity, ListCode.bytes,
      sizeMod, ListCode.realloc, clearNew, hloop] <;>
    rfl

/-- A new list with room for one item, a string, a join and a sort. -/
def sample (c : t.Unit) : List (TextOp t) :=
  [.store (.create 1 t.plainAlloc), .store (.on 0 (.append [c] () t.plainAlloc)),
    .join 0 none t.plainAlloc, .sort 0 t.mergeSorter]

theorem calls_sample {w : TextCode} (f : Widening t w) (c : t.Unit) :
    List.Forall₂ f.Call (sample c) (sample (f.widen c)) := by
  have happend : f.ListCall (.append [c] () t.plainAlloc)
      (.append [f.widen c] () w.plainAlloc) :=
    .append [c] (succeeds_plainAlloc t) (succeeds_plainAlloc w)
  exact .cons (.create 1 (succeeds_plainAlloc t) (succeeds_plainAlloc w))
    (.cons (.on 0 happend) (.cons (.join 0 none rfl rfl) (.cons (.sort 0 _ _) .nil)))

theorem admissible_sample (c : t.Unit) (hsize : 2 * t.unitSize < sizeMod) :
    Admissible textStep TextAllowed (sample c) [] := by
  have hcreated : textStep [] (.store (.create 1 t.plainAlloc)) =
      some (.store (.list (some 0)), [listOf [] 16]) := by
    rw [textStep, storeStep, create_one]
    rfl
  have happended : textStep [listOf [] 16] (.store (.on 0 (.append [c] () t.plainAlloc))) =
      some (.store (.out (.ret 1)), [listOf [([c], ())] 15]) := rfl
  have hlist : Represents (listOf [([c], ())] 15 : t.list.Items) [([c], ())] :=
    ⟨15, rfl, by change 8 * 16 < sizeMod; decide⟩
  have hfits : JoinFits (listOf [([c], ())] 15 : t.list.Items) none := by
    intro names hnames
    obtain rfl := Option.some.inj ((names_eq hlist).symm.trans hnames)
    exact hsize
  have hgrow : MayGrow (⟨0, 0, some []⟩ : t.list.Items) 1 :=
    fun _ => ⟨0, by change 1 ≤ 16; decide, by change 8 * 16 < sizeMod; decide⟩
  refine ⟨⟨succeeds_plainAlloc t, hgrow⟩, fun out lists hcreate => ?_⟩
  obtain ⟨rfl, rfl⟩ := Prod.mk.inj (Option.some.inj (hcreated.symm.trans hcreate))
  have hroom : MayGrow (listOf [] 16 : t.list.Items) 1 :=
    fun hfull => absurd hfull (Nat.not_lt_of_le (Nat.le_add_left 1 15))
  refine ⟨⟨_, rfl, succeeds_plainAlloc t, hroom⟩, fun out lists happend => ?_⟩
  obtain ⟨rfl, rfl⟩ := Prod.mk.inj (Option.some.inj (happended.symm.trans happend))
  refine ⟨⟨rfl, _, rfl, hfits⟩, fun out lists hjoin => ?_⟩
  rw [textStep, List.getElem?_cons_zero, Option.bind_some, join_eq hlist rfl hfits] at hjoin
  obtain ⟨rfl, rfl⟩ := Prod.mk.inj (Option.some.inj hjoin)
  exact ⟨⟨_, rfl⟩, fun _ _ _ => trivial⟩

end TextCode

/-- A byte as the 16-bit unit of the same unsigned value. -/
def byteWidening : Widening stringText wstringText where
  widen c := ⟨c.1.toUInt16, fun hzero => c.2 (UInt8.toNat_inj.mp (congrArg UInt16.toNat hzero))⟩
  value_widen _ := rfl

/-- **The narrow and the wide list of strings are one data structure**: programs whose byte
counts do not wrap answer alike and leave lists with the same strings. -/
theorem stringList_agrees_wstringList {ops : List (TextCode.TextOp stringText)}
    {ops' : List (TextCode.TextOp wstringText)}
    (hcalls : List.Forall₂ byteWidening.Call ops ops')
    (hops : Admissible TextCode.textStep TextCode.TextAllowed ops [])
    (hops' : Admissible TextCode.textStep TextCode.TextAllowed ops' []) :
    byteWidening.Agrees ops ops' :=
  byteWidening.agrees_of_admissible hcalls hops hops'

/-- The string `*`, on both lists. -/
theorem stringList_agrees_wstringList_star :
    byteWidening.Agrees (TextCode.sample (t := stringText) CChar.star)
      (TextCode.sample (t := wstringText) (byteWidening.widen CChar.star)) :=
  stringList_agrees_wstringList (TextCode.calls_sample byteWidening CChar.star)
    (TextCode.admissible_sample (t := stringText) CChar.star (by decide))
    (TextCode.admissible_sample (t := wstringText) (byteWidening.widen CChar.star) (by decide))

/-- With a capacity of `2^61` the byte count is zero: `memset` clears nothing, but the loop
writes outside the array. -/
theorem not_stringList_agrees_wstringList_capacity :
    ¬ ∀ ops ops', List.Forall₂ byteWidening.Call ops ops' → byteWidening.Agrees ops ops' := by
  intro hagrees
  obtain ⟨outs, lists, lists', -, hrun', -⟩ :=
    hagrees [.store (.create (2 ^ 61) stringText.plainAlloc)]
      [.store (.create (2 ^ 61) wstringText.plainAlloc)]
      (.cons (.create _ (TextCode.succeeds_plainAlloc _) (TextCode.succeeds_plainAlloc _)) .nil)
  have hwide : wstringText.list.create (2 ^ 61) wstringText.plainAlloc = none := rfl
  rw [runOps, TextCode.textStep, storeStep, hwide, Option.map_none, Option.map_none,
    Option.bind_none] at hrun'
  exact Option.some_ne_none _ hrun'.symm

end BasC
