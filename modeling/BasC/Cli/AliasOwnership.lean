/-
# Who owns the aliases

What the calls of a parser do with the memory of its aliases. Each call leaves the blocks of the
parser, and those of an alias for which the map had no memory, and it answers as the call without
blocks does, for which only those requests are met that are granted. When the parser has been freed
only the aliases that were lost in this way are left, and with all memory there are none.
-/

import BasC.Cli.AliasHeap

namespace BasC

open Lib

namespace PrefixMap

variable {α β : Type} (f : α → β)

/-- The map with other values at the same keys. -/
def mapValues (map : PrefixMap α) : PrefixMap β where
  buckets i := (map.buckets i).map fun entry => ⟨entry.key, f entry.value⟩
  count := map.count

theorem chainGet_map (key : CString) (chain : List (PrefixMapEntry α)) :
    chainGet key (chain.map fun entry => ⟨entry.key, f entry.value⟩) =
      (chainGet key chain).map f := by
  induction chain with
  | nil => rfl
  | cons entry chain ih =>
      by_cases hkey : entry.key = key
      · simp [chainGet, hkey]
      · simp [chainGet, hkey, ih]

theorem chainReplace_map (key : CString) (value : α) (chain : List (PrefixMapEntry α)) :
    chainReplace key (f value) (chain.map fun entry => ⟨entry.key, f entry.value⟩) =
      (chainReplace key value chain).map
        (List.map fun entry => ⟨entry.key, f entry.value⟩) := by
  induction chain with
  | nil => rfl
  | cons entry chain ih =>
      by_cases hkey : entry.key = key
      · simp [chainReplace, hkey]
      · simp [chainReplace, hkey, ih, Function.comp_def]

theorem chainRemove_map (key : CString) (chain : List (PrefixMapEntry α)) :
    chainRemove key (chain.map fun entry => ⟨entry.key, f entry.value⟩) =
      (chainRemove key chain).map (List.map fun entry => ⟨entry.key, f entry.value⟩) := by
  induction chain with
  | nil => rfl
  | cons entry chain ih =>
      by_cases hkey : entry.key = key
      · simp [chainRemove, hkey]
      · simp [chainRemove, hkey, ih, Function.comp_def]

theorem get_mapValues (map : PrefixMap α) (key : CString) :
    (map.mapValues f).get key = (map.get key).map f :=
  chainGet_map f key _

theorem contains_mapValues (map : PrefixMap α) (key : CString) :
    (map.mapValues f).contains key = map.contains key := by
  rw [contains, contains, get_mapValues, Option.isSome_map]

/-- Other values in one chain. -/
theorem map_update (buckets : Fin prefixMapSize → List (PrefixMapEntry α)) (i : Fin prefixMapSize)
    (chain : List (PrefixMapEntry α)) :
    (fun j => (Function.update buckets i chain j).map fun entry =>
        (⟨entry.key, f entry.value⟩ : PrefixMapEntry β)) =
      Function.update (fun j => (buckets j).map fun entry => ⟨entry.key, f entry.value⟩) i
        (chain.map fun entry => ⟨entry.key, f entry.value⟩) := by
  funext j
  by_cases hj : j = i
  · subst hj
    rw [Function.update_self, Function.update_self]
  · rw [Function.update_of_ne hj, Function.update_of_ne hj]

theorem mapValues_add (map : PrefixMap α) (key : CString) (value : α) :
    (map.add key value).mapValues f = (map.mapValues f).add key (f value) := by
  unfold add
  have hreplace := chainReplace_map f key value (map.buckets (hashString key))
  simp only [mapValues] at hreplace ⊢
  rw [hreplace]
  cases chainReplace key value (map.buckets (hashString key)) with
  | none =>
      simp only [Option.map_none, map_update]
      rfl
  | some chain => simp only [Option.map_some, map_update]

theorem mapValues_remove (map : PrefixMap α) (key : CString) :
    (map.remove key).2.mapValues f = ((map.mapValues f).remove key).2 := by
  unfold remove
  have hremove := chainRemove_map f key (map.buckets (hashString key))
  simp only [mapValues] at hremove ⊢
  rw [hremove]
  cases chainRemove key (map.buckets (hashString key)) with
  | none => rfl
  | some chain => simp only [Option.map_some, map_update]

end PrefixMap

/-- The blocks of an alias. -/
def HeapAlias.held (aliasEntry : HeapAlias) : Multiset ℕ :=
  {aliasEntry.value.block} + {aliasEntry.block}

/-- The blocks of an entry. -/
def HeapEntry.held (entry : HeapEntry) : Multiset ℕ :=
  entry.aliasEntry.held + {entry.key} + {entry.entry}

/-- The blocks of the entries of a map. -/
def mapHeld (map : PrefixMap HeapEntry) : Multiset ℕ :=
  (map.entries.map fun entry => entry.value.held).sum

/-- The blocks of a parser. -/
def HeapParser.held (parser : HeapParser) : Multiset ℕ :=
  {parser.handlers} + (parser.aliasMap.elim 0 fun map => mapHeld map.2 + {map.1}) + {parser.block}

/-- The blocks of aliases that no map has. -/
def aliasesHeld (lost : List HeapAlias) : Multiset ℕ := (lost.map HeapAlias.held).sum

/-- The map as it is seen from outside: the values of the aliases. -/
def seenMap (map : PrefixMap HeapEntry) : PrefixMap CString :=
  map.mapValues fun entry => entry.aliasEntry.value.text

/-- The parser as it is seen from outside, after so many requests. -/
def HeapParser.state (parser : HeapParser) (asked : ℕ) : AliasState :=
  ⟨parser.numHandlers, parser.handlersCapacity, parser.aliasMap.map fun map => seenMap map.2, asked⟩

/-- The values of aliases that no map has. -/
def lostValues (lost : List HeapAlias) : List CString :=
  lost.map fun aliasEntry => aliasEntry.value.text

section Held

variable {map : PrefixMap HeapEntry} {key : CString}

theorem mapHeld_create : mapHeld .create = 0 := by
  rw [mapHeld, PrefixMap.entries_create]
  rfl

theorem mapHeld_clear : mapHeld map.clear = 0 := by
  rw [mapHeld, PrefixMap.entries_clear]
  rfl

theorem mapHeld_of_perm {entries : List (PrefixMapEntry HeapEntry)} {value : HeapEntry}
    (hperm : map.entries.Perm (⟨key, value⟩ :: entries)) :
    mapHeld map = value.held + (entries.map fun entry => entry.value.held).sum := by
  rw [mapHeld, (hperm.map _).sum_eq, List.map_cons, List.sum_cons]

/-- The old value of a key is exchanged for the new one. -/
theorem mapHeld_add_of_some {old : HeapEntry} (hget : map.get key = some old) (value : HeapEntry) :
    ∃ rest, mapHeld map = old.held + rest ∧ mapHeld (map.add key value) = value.held + rest := by
  rcases map.add_cases key value with ⟨old', others, hold, hentries, hadded, -⟩ | ⟨hnone, -⟩
  · obtain rfl : old' = old := Option.some.inj (hold.symm.trans hget)
    exact ⟨_, mapHeld_of_perm hentries, mapHeld_of_perm hadded⟩
  · rw [hnone] at hget
    cases hget

theorem mapHeld_add_of_none (hget : map.get key = none) (value : HeapEntry) :
    mapHeld (map.add key value) = value.held + mapHeld map := by
  rcases map.add_cases key value with ⟨old, _, hold, -⟩ | ⟨-, -, hadded, -⟩
  · rw [hold] at hget
    cases hget
  · exact mapHeld_of_perm hadded

theorem mapHeld_remove {old : HeapEntry} (hget : map.get key = some old) :
    mapHeld map = old.held + mapHeld (map.remove key).2 := by
  rcases map.remove_cases key with ⟨old', hold, hentries, -⟩ | ⟨hnone, -⟩
  · obtain rfl : old' = old := Option.some.inj (hold.symm.trans hget)
    exact mapHeld_of_perm hentries
  · rw [hnone] at hget
    cases hget

theorem aliasesHeld_append (lost lost' : List HeapAlias) :
    aliasesHeld (lost ++ lost') = aliasesHeld lost + aliasesHeld lost' := by
  simp [aliasesHeld]

theorem owns_freeAliasEntry (aliasEntry : HeapAlias) :
    Owns aliasEntry.held (freeAliasEntry aliasEntry) fun _ left => left = 0 := by
  refine (owns_freeOne _).bind rfl fun _ left hleft => ?_
  rw [hleft, zero_add]
  exact owns_freeOne _

theorem owns_freeEntry (entry : HeapEntry) :
    Owns entry.held (freeEntry entry) fun _ left => left = 0 := by
  refine (owns_freeAliasEntry entry.aliasEntry).bind (add_assoc _ _ _) fun _ left hleft => ?_
  rw [hleft, zero_add]
  refine (owns_freeOne entry.key).bind rfl fun _ left hleft => ?_
  rw [hleft, zero_add]
  exact owns_freeOne entry.entry

/-- `prefix_map_remove` frees the entry of the key. -/
theorem owns_prefixMapRemoveIn (map : PrefixMap HeapEntry) (key : CString) :
    Owns (mapHeld map) (prefixMapRemoveIn map key) fun out left =>
      out = (map.remove key).2 ∧ left = mapHeld out := by
  unfold prefixMapRemoveIn
  cases hget : map.get key with
  | none =>
      rcases map.remove_cases key with ⟨old, hold, -⟩ | ⟨-, -, hremove⟩
      · rw [hget] at hold
        cases hold
      · exact owns_pure ⟨by rw [hremove], rfl⟩
  | some existing =>
      refine (owns_freeEntry existing).bind (mapHeld_remove hget) fun _ left hleft => owns_pure ?_
      exact ⟨rfl, by rw [hleft, zero_add]⟩

/-- `prefix_map_clear` frees all entries. -/
theorem owns_prefixMapClearIn (map : PrefixMap HeapEntry) :
    Owns (mapHeld map) (prefixMapClearIn map) fun out left => out = map.clear ∧ left = 0 := by
  have hentries : Owns (map.entries.map fun entry => entry.value.held).sum
      (map.entries.forM fun entry => freeEntry entry.value) fun _ left => left = 0 :=
    @owns_forM _ (fun entry => entry.value.held) (fun entry => freeEntry entry.value)
      (fun entry => owns_freeEntry entry.value) map.entries
  exact hentries.step fun _ left hleft => owns_pure ⟨rfl, hleft⟩

end Held

/-! ## The calls -/

section Calls

variable {grants : ParserGrants}

/-- The map takes an alias, or loses it when it has no memory for an entry. -/
theorem owns_prefixMapAddIn (hkey : ∀ n, grants .key n = true) (map : PrefixMap HeapEntry)
    (key : CString) (aliasEntry : HeapAlias) (asked : ℕ) :
    OwnsAt asked (mapHeld map + aliasEntry.held) (prefixMapAddIn grants map key aliasEntry)
      fun out n left => ∃ map' lost, out = some map' ∧ left = mapHeld map' + aliasesHeld lost ∧
        prefixMapAddAt grants (seenMap map) key aliasEntry.value.text asked =
          (seenMap map', lostValues lost, n) := by
  have hseen : (seenMap map).contains key = (map.get key).isSome :=
    PrefixMap.contains_mapValues _ map key
  unfold prefixMapAddIn prefixMapAddAt
  rw [hseen]
  cases hget : map.get key with
  | some existing =>
      obtain ⟨rest, hmap, hadded⟩ :=
        mapHeld_add_of_some hget { existing with aliasEntry := aliasEntry }
      refine ((owns_freeAliasEntry existing.aliasEntry).ownsAt fun _ => rfl).bind
        (r := {existing.key} + {existing.entry} + rest + aliasEntry.held) ?_
        fun _ n left hleft => ownsAt_pure ?_
      · rw [hmap, HeapEntry.held]
        abel
      · obtain ⟨rfl, rfl⟩ := hleft
        refine ⟨_, [], rfl, ?_, ?_⟩
        · rw [hadded, HeapEntry.held, aliasesHeld, List.map_nil, List.sum_nil]
          abel
        · rw [Option.isSome_some, if_pos rfl, seenMap, seenMap, PrefixMap.mapValues_add]
          rfl
  | none =>
      rw [Option.isSome_none, if_neg Bool.false_ne_true]
      refine (ownsAt_malloc (grants .entry) asked).bind (zero_add _).symm fun out n left hout => ?_
      obtain ⟨rfl, rfl, hentry⟩ := hout
      cases out with
      | none =>
          rw [if_neg (by simp [← hentry])]
          refine ownsAt_pure ⟨map, [aliasEntry], rfl, ?_, rfl⟩
          simp [aliasesHeld]
      | some entry =>
          rw [if_pos (show grants .entry asked = true from hentry.symm)]
          refine (ownsAt_malloc (grants .key) (asked + 1)).bind (zero_add _).symm
            fun out n left hout => ?_
          obtain ⟨rfl, rfl, hgranted⟩ := hout
          cases out with
          | none =>
              rw [hkey] at hgranted
              cases hgranted
          | some keyBlock =>
              refine ownsAt_pure ⟨_, [], rfl, ?_, ?_⟩
              · rw [mapHeld_add_of_none hget, HeapEntry.held, aliasesHeld, List.map_nil,
                  List.sum_nil, toList_some, toList_some]
                abel
              · rw [seenMap, seenMap, PrefixMap.mapValues_add]
                rfl

/-- What a call leaves: its parser, and the aliases that it has lost. It has answered, and changed
what is seen of the parser, as the call without blocks does. -/
def Answers (answer : AliasOut) (out : Option (AliasAnswer × HeapParser)) (n : ℕ)
    (left : Multiset ℕ) : Prop :=
  ∃ next lost, out = some next ∧ left = next.2.held + aliasesHeld lost ∧
    answer = ⟨next.1, lostValues lost, next.2.state n⟩

/-- A call that loses nothing. -/
theorem answers_of_eq {answer : AliasOut} {next : AliasAnswer × HeapParser} {n : ℕ}
    {left : Multiset ℕ} (hleft : left = next.2.held)
    (hanswer : answer = ⟨next.1, [], next.2.state n⟩) : Answers answer (some next) n left :=
  ⟨next, [], rfl, by simp [hleft, aliasesHeld], hanswer⟩

theorem owns_registerHandlerIn (parser : HeapParser) (asked : ℕ)
    (hroom : parser.handlersCapacity ≤ parser.numHandlers →
      (parser.handlersCapacity * 2 : ℕ) ≤ intMax) :
    OwnsAt asked parser.held (registerHandlerIn grants parser) fun out n left =>
      Answers (registerHandlerAt grants (parser.state asked))
        (out.map fun out => (.ret out.1, out.2)) n left := by
  unfold registerHandlerIn registerHandlerAt
  change OwnsAt asked parser.held _ fun out n left =>
    Answers (if parser.numHandlers < parser.handlersCapacity then _ else _) _ n left
  by_cases hfull : parser.numHandlers < parser.handlersCapacity
  · rw [if_pos hfull, if_pos hfull]
    exact ownsAt_pure (answers_of_eq rfl rfl)
  · rw [if_neg hfull, if_neg hfull, if_neg (not_lt.mpr (hroom (not_lt.mp hfull)))]
    refine (ownsAt_realloc (grants .handlersGrow) (some parser.handlers) asked).bind
      (r := (parser.aliasMap.elim 0 fun map => mapHeld map.2 + {map.1}) + {parser.block})
      (add_assoc _ _ _) fun out n left hout => ?_
    obtain ⟨rfl, rfl, hgrant⟩ := hout
    change OwnsAt _ _ _ fun out n left =>
      Answers (if grants .handlersGrow asked = true then _ else _) _ n left
    rw [← hgrant]
    cases out with
    | none => exact ownsAt_pure (answers_of_eq (add_assoc _ _ _).symm rfl)
    | some handlers => exact ownsAt_pure (answers_of_eq (add_assoc _ _ _).symm rfl)

theorem owns_setAliasIn (hkey : ∀ n, grants .key n = true) (parser : HeapParser)
    (name value : CString) (asked : ℕ) :
    OwnsAt asked parser.held (setAliasIn grants parser name value) fun out n left =>
      Answers (setAliasAt grants (parser.state asked) name value)
        (out.map fun out => (.ret out.1, out.2)) n left := by
  obtain ⟨block, handlers, numHandlers, handlersCapacity, aliasMap⟩ := parser
  cases aliasMap with
  | none => exact ownsAt_pure (answers_of_eq rfl rfl)
  | some aliasMap =>
      obtain ⟨mapBlock, map⟩ := aliasMap
      change OwnsAt asked _ _ fun (out : Option (ℤ × HeapParser)) n left => Answers
        (setAliasAt grants ⟨numHandlers, handlersCapacity, some (seenMap map), asked⟩ name value)
        (out.map fun out => (.ret out.1, out.2)) n left
      unfold setAliasIn setAliasAt
      dsimp only
      refine (ownsAt_malloc (grants .aliasEntry) asked).bind (zero_add _).symm
        fun out n left hout => ?_
      obtain ⟨rfl, rfl, hgrant⟩ := hout
      cases out with
      | none =>
          rw [if_neg (by simp [← hgrant])]
          exact ownsAt_pure (answers_of_eq (zero_add _) rfl)
      | some aliasEntry =>
          rw [if_pos (show grants .aliasEntry asked = true from hgrant.symm)]
          refine (ownsAt_malloc (grants .aliasValue) (asked + 1)).bind (zero_add _).symm
            fun out n left hout => ?_
          obtain ⟨rfl, rfl, hgrant'⟩ := hout
          cases out with
          | none =>
              rw [if_neg (by simp [← hgrant'])]
              refine ((owns_freeOne aliasEntry).ownsAt fun _ => rfl).bind (zero_add _)
                fun _ n left hleft => ownsAt_pure ?_
              obtain ⟨rfl, rfl⟩ := hleft
              refine answers_of_eq ?_ rfl
              rw [zero_add]
          | some valueBlock =>
              rw [if_pos (show grants .aliasValue (asked + 1) = true from hgrant'.symm)]
              refine (owns_prefixMapAddIn hkey map name ⟨aliasEntry, ⟨valueBlock, value⟩⟩ _).bind
                (r := {handlers} + {mapBlock} + {block}) ?_
                fun added n left hadded => ownsAt_pure ?_
              · simp only [HeapParser.held, HeapAlias.held, toList_some, Option.elim_some]
                abel
              · obtain ⟨map', lost, rfl, rfl, hadd⟩ := hadded
                refine ⟨_, lost, rfl, ?_, ?_⟩
                · simp only [HeapParser.held, Option.elim_some]
                  abel
                · dsimp only at hadd
                  rw [hadd]
                  rfl

theorem prefixMapClearIn_asked (map : PrefixMap HeapEntry) (heap : Heap) :
    (prefixMapClearIn map heap).2.asked = heap.asked := by
  have hforM (entries : List (PrefixMapEntry HeapEntry)) (heap : Heap) :
      ((entries.forM fun entry => freeEntry entry.value : Owning PUnit) heap).2.asked =
        heap.asked := by
    induction entries generalizing heap with
    | nil => rfl
    | cons entry entries ih => exact (ih (freeEntry entry.value heap).2).trans rfl
  exact hforM map.entries heap

theorem owns_removeAliasIn (resolver : Option (CString → Option CString)) (parser : HeapParser)
    (name : CString) (asked : ℕ) :
    OwnsAt asked parser.held (removeAliasIn parser name) fun out n left =>
      Answers (aliasOpAt grants resolver (parser.state asked) (.removeAlias name))
        (some (.ret out.1, out.2)) n left := by
  obtain ⟨block, handlers, numHandlers, handlersCapacity, aliasMap⟩ := parser
  cases aliasMap with
  | none => exact ownsAt_pure (answers_of_eq rfl rfl)
  | some aliasMap =>
      obtain ⟨mapBlock, map⟩ := aliasMap
      have hseen : (seenMap map).contains name = map.contains name :=
        PrefixMap.contains_mapValues _ map name
      unfold removeAliasIn aliasOpAt
      dsimp only [HeapParser.state, Option.map_some, Option.elim_some]
      rw [hseen]
      by_cases hcontains : map.contains name = true
      · rw [if_pos hcontains]
        have hremove : OwnsAt asked (mapHeld map) (prefixMapRemoveIn map name) _ :=
          (owns_prefixMapRemoveIn map name).ownsAt fun heap => by
            unfold prefixMapRemoveIn
            cases map.get name <;> rfl
        refine hremove.bind (r := {handlers} + {mapBlock} + {block}) ?_
          fun removed n left hremoved => ownsAt_pure ?_
        · simp only [HeapParser.held, Option.elim_some]
          abel
        · obtain ⟨rfl, rfl, rfl⟩ := hremoved
          refine answers_of_eq ?_ ?_
          · simp only [HeapParser.held, Option.elim_some]
            abel
          · rw [if_pos hcontains, seenMap, ← PrefixMap.mapValues_remove]
            rfl
      · rw [if_neg hcontains, if_neg hcontains]
        exact ownsAt_pure (answers_of_eq rfl rfl)

theorem owns_clearAliasesIn (parser : HeapParser) (asked : ℕ) :
    OwnsAt asked parser.held (clearAliasesIn parser) fun out n left =>
      left = out.held ∧ out.state n = { parser.state asked with
        aliasMap := (parser.state asked).aliasMap.map PrefixMap.clear } := by
  obtain ⟨block, handlers, numHandlers, handlersCapacity, aliasMap⟩ := parser
  cases aliasMap with
  | none => exact ownsAt_pure ⟨rfl, rfl⟩
  | some aliasMap =>
      obtain ⟨mapBlock, map⟩ := aliasMap
      have hclear : OwnsAt asked (mapHeld map) (prefixMapClearIn map) _ :=
        (owns_prefixMapClearIn map).ownsAt (prefixMapClearIn_asked map)
      refine hclear.bind (r := {handlers} + {mapBlock} + {block}) ?_
        fun cleared n left hcleared => ownsAt_pure ?_
      · simp only [HeapParser.held, Option.elim_some]
        abel
      · obtain ⟨rfl, rfl, rfl⟩ := hcleared
        refine ⟨?_, rfl⟩
        simp only [HeapParser.held, Option.elim_some, mapHeld_clear]
        abel

variable (resolver : Option (CString → Option CString))

/-- **One call.** -/
theorem owns_aliasOpIn (hkey : ∀ n, grants .key n = true) (parser : HeapParser) (call : AliasOp)
    (asked : ℕ) (hroom : call = .registerHandler → parser.handlersCapacity ≤ parser.numHandlers →
      (parser.handlersCapacity * 2 : ℕ) ≤ intMax) :
    OwnsAt asked parser.held (aliasOpIn grants resolver parser call)
      (Answers (aliasOpAt grants resolver (parser.state asked) call)) := by
  cases call with
  | registerHandler =>
      exact (owns_registerHandlerIn parser asked (hroom rfl)).step fun out n left hout =>
        ownsAt_pure hout
  | setAlias name value =>
      exact (owns_setAliasIn hkey parser name value asked).step fun out n left hout =>
        ownsAt_pure hout
  | getAlias name =>
      refine ownsAt_pure (answers_of_eq rfl ?_)
      obtain ⟨block, handlers, numHandlers, handlersCapacity, aliasMap⟩ := parser
      cases aliasMap with
      | none => cases resolver <;> rfl
      | some aliasMap =>
          cases resolver <;>
            simp [getAliasIn, aliasOpAt, HeapParser.state, seenMap, PrefixMap.get_mapValues]
  | removeAlias name =>
      exact (owns_removeAliasIn resolver parser name asked).step fun out n left hout =>
        ownsAt_pure hout
  | clearAliases =>
      refine (owns_clearAliasesIn parser asked).step fun out n left hout => ownsAt_pure ?_
      refine answers_of_eq hout.1 ?_
      rw [hout.2]
      rfl

/-- The handlers fit the array, and with those that are to come they are at most `2 ^ 30`. -/
structure AliasState.Room (state : AliasState) (calls : List AliasOp) : Prop where
  pos : 0 < state.handlersCapacity
  fits : state.numHandlers ≤ state.handlersCapacity
  most : state.numHandlers + calls.count .registerHandler ≤ 2 ^ 30

/-- The next handler has room in an array whose capacity is an `int`. -/
theorem AliasState.Room.doubles {state : AliasState} {calls : List AliasOp}
    (hroom : state.Room (.registerHandler :: calls))
    (hfull : state.handlersCapacity ≤ state.numHandlers) :
    (state.handlersCapacity * 2 : ℕ) ≤ intMax := by
  have hmost := hroom.most
  rw [List.count_cons_self] at hmost
  rw [intMax]
  omega

theorem numHandlers_aliasOpAt {call : AliasOp} (hcall : call ≠ .registerHandler)
    (state : AliasState) :
    (aliasOpAt grants resolver state call).state.numHandlers = state.numHandlers ∧
      (aliasOpAt grants resolver state call).state.handlersCapacity = state.handlersCapacity := by
  cases call with
  | registerHandler => exact absurd rfl hcall
  | setAlias name value =>
      obtain ⟨numHandlers, handlersCapacity, aliasMap, asked⟩ := state
      cases aliasMap with
      | none => exact ⟨rfl, rfl⟩
      | some map =>
          simp only [aliasOpAt, setAliasAt]
          split_ifs <;> exact ⟨rfl, rfl⟩
  | getAlias name => exact ⟨rfl, rfl⟩
  | removeAlias name =>
      obtain ⟨numHandlers, handlersCapacity, aliasMap, asked⟩ := state
      cases aliasMap with
      | none => exact ⟨rfl, rfl⟩
      | some map =>
          simp only [aliasOpAt, Option.elim_some]
          split_ifs <;> exact ⟨rfl, rfl⟩
  | clearAliases => exact ⟨rfl, rfl⟩

theorem AliasState.Room.step {state : AliasState} {call : AliasOp} {calls : List AliasOp}
    (hroom : state.Room (call :: calls)) :
    (aliasOpAt grants resolver state call).state.Room calls := by
  obtain ⟨hpos, hfits, hmost⟩ := hroom
  by_cases hcall : call = .registerHandler
  · subst hcall
    rw [List.count_cons_self] at hmost
    simp only [aliasOpAt, registerHandlerAt]
    split_ifs with hfull hgrant
    · exact ⟨hpos, hfull, by dsimp only; omega⟩
    · exact ⟨by dsimp only; omega, by dsimp only; omega, by dsimp only; omega⟩
    · exact ⟨hpos, hfits, by dsimp only; omega⟩
  · obtain ⟨hnum, hcapacity⟩ := numHandlers_aliasOpAt resolver hcall state
    rw [List.count_cons_of_ne hcall] at hmost
    exact ⟨hcapacity ▸ hpos, by rwa [hnum, hcapacity], by rwa [hnum]⟩

/-- **The calls of a run.** What is lost by one call stays lost. -/
theorem owns_aliasOpsIn (hkey : ∀ n, grants .key n = true) (calls : List AliasOp)
    (parser : HeapParser) (asked : ℕ) (hroom : (parser.state asked).Room calls) :
    OwnsAt asked parser.held (aliasOpsIn grants resolver calls parser) fun out _ left =>
      ∃ next lost, out = some next ∧ left = next.2.held + aliasesHeld lost ∧
        next.1 = (aliasOpsAt grants resolver calls (parser.state asked)).map AliasOut.answer ∧
        lostValues lost =
          (aliasOpsAt grants resolver calls (parser.state asked)).flatMap AliasOut.lost := by
  induction calls generalizing parser asked with
  | nil =>
      refine ownsAt_pure ⟨_, [], rfl, ?_, rfl, rfl⟩
      simp [aliasesHeld]
  | cons call calls ih =>
      refine (owns_aliasOpIn resolver hkey parser call asked ?_).step fun out n left hout => ?_
      · rintro rfl
        exact hroom.doubles
      · have hnext := @AliasState.Room.step grants resolver _ _ _ hroom
        obtain ⟨next, lost, rfl, rfl, hanswer⟩ := hout
        rw [hanswer] at hnext
        dsimp only at hnext ⊢
        refine (ih next.2 n hnext).bind rfl fun out n left hout => ownsAt_pure ?_
        obtain ⟨last, lost', rfl, rfl, hanswers, hlost⟩ := hout
        refine ⟨_, lost ++ lost', rfl, ?_, ?_, ?_⟩
        · rw [aliasesHeld_append]
          abel
        · rw [aliasOpsAt, hanswer, List.map_cons]
          exact congrArg (next.1 :: ·) hanswers
        · rw [aliasOpsAt, hanswer, List.flatMap_cons, ← hlost, lostValues, List.map_append]
          rfl

/-! ## A parser from its creation to its end -/

theorem owns_cliParserCreateIn (asked : ℕ) :
    OwnsAt asked 0 (cliParserCreateIn grants resolver.isSome) fun out n left =>
      cliParserCreateAt grants resolver asked = out.map (fun parser => parser.state n) ∧
        left = out.elim 0 HeapParser.held := by
  unfold cliParserCreateAt
  refine (ownsAt_malloc (grants .parser) asked).step fun out n left hout => ?_
  obtain ⟨rfl, rfl, hgrant⟩ := hout
  rw [← hgrant]
  cases out with
  | none => exact ownsAt_pure ⟨rfl, rfl⟩
  | some block =>
      refine (ownsAt_malloc (grants .handlers) (asked + 1)).bind (zero_add _).symm
        fun out n left hout => ?_
      obtain ⟨rfl, rfl, hgrant'⟩ := hout
      rw [← hgrant']
      cases out with
      | none =>
          refine ((owns_freeOne block).ownsAt fun _ => rfl).bind (add_comm _ _)
            fun _ n left hleft => ownsAt_pure ?_
          exact ⟨rfl, by rw [hleft.2]; rfl⟩
      | some handlers =>
          dsimp only
          cases resolver with
          | some resolver => exact ownsAt_pure ⟨rfl, rfl⟩
          | none =>
              dsimp only [Option.isSome_none]
              rw [if_neg Bool.false_ne_true]
              refine (ownsAt_malloc (grants .map) (asked + 2)).bind (zero_add _).symm
                fun out n left hout => ?_
              obtain ⟨rfl, rfl, hgrant''⟩ := hout
              rw [← hgrant'']
              cases out with
              | none =>
                  refine ((owns_freeOne handlers).ownsAt fun _ => rfl).bind (zero_add _)
                    fun _ n left hleft => ?_
                  obtain ⟨rfl, rfl⟩ := hleft
                  rw [zero_add]
                  refine ((owns_freeOne block).ownsAt fun _ => rfl).step
                    fun _ n left hleft => ownsAt_pure ?_
                  exact ⟨rfl, hleft.2⟩
              | some map =>
                  refine ownsAt_pure ⟨rfl, ?_⟩
                  simp only [HeapParser.held, Option.elim_some, mapHeld_create, toList_some]
                  abel

theorem owns_cliParserFreeIn (parser : HeapParser) :
    Owns parser.held (cliParserFreeIn parser) fun _ left => left = 0 := by
  obtain ⟨block, handlers, numHandlers, handlersCapacity, aliasMap⟩ := parser
  refine (owns_freeOne handlers).bind (add_assoc _ _ _) fun _ left hleft => ?_
  rw [hleft, zero_add]
  cases aliasMap with
  | none =>
      dsimp only [Option.elim_none]
      rw [zero_add]
      exact owns_freeOne block
  | some aliasMap =>
      obtain ⟨mapBlock, map⟩ := aliasMap
      refine (owns_prefixMapClearIn map).bind (add_assoc _ _ _) fun _ left hleft => ?_
      rw [hleft.2, zero_add]
      refine (owns_freeOne mapBlock).bind rfl fun _ left hleft => ?_
      rw [hleft, zero_add]
      exact owns_freeOne block

theorem cliParserFreeIn_asked (parser : HeapParser) (heap : Heap) :
    (cliParserFreeIn parser heap).2.asked = heap.asked := by
  obtain ⟨block, handlers, numHandlers, handlersCapacity, aliasMap⟩ := parser
  cases aliasMap with
  | none => rfl
  | some aliasMap => exact (prefixMapClearIn_asked aliasMap.2 _).trans rfl

/-- A new parser has room for handlers, and an empty map if there is no resolver. -/
theorem room_cliParserCreateAt {calls : List AliasOp}
    (hmost : calls.count .registerHandler ≤ 2 ^ 30) {asked : ℕ} {state : AliasState}
    (hcreate : cliParserCreateAt grants resolver asked = some state) :
    state.Room calls ∧ state.aliasMap = if resolver.isSome then none else some .create := by
  unfold cliParserCreateAt at hcreate
  split_ifs at hcreate with hboth hresolver hmap
  · obtain rfl := Option.some.inj hcreate
    exact ⟨⟨Nat.succ_pos 15, Nat.zero_le 16, by simpa using hmost⟩, (if_pos hresolver).symm⟩
  · obtain rfl := Option.some.inj hcreate
    exact ⟨⟨Nat.succ_pos 15, Nat.zero_le 16, by simpa using hmost⟩, (if_neg hresolver).symm⟩

/-- The value that a call gives to an alias. -/
def AliasOp.values : AliasOp → List CString
  | .setAlias _ value => [value]
  | _ => []

/-- A call loses only the value that it sets, and then it returns 0 and the map is as before. -/
theorem aliasOpAt_lost (state : AliasState) (call : AliasOp) :
    (aliasOpAt grants resolver state call).lost.Sublist call.values ∧
      ((aliasOpAt grants resolver state call).lost ≠ [] →
        (aliasOpAt grants resolver state call).answer = .ret 0 ∧
        (aliasOpAt grants resolver state call).state.aliasMap = state.aliasMap) ∧
      ((∀ n, grants .entry n = true) → (aliasOpAt grants resolver state call).lost = []) := by
  obtain ⟨numHandlers, handlersCapacity, aliasMap, asked⟩ := state
  cases call with
  | registerHandler =>
      simp only [aliasOpAt, registerHandlerAt]
      split_ifs <;> exact ⟨List.nil_sublist _, fun h => absurd rfl h, fun _ => rfl⟩
  | setAlias name value =>
      cases aliasMap with
      | none => exact ⟨List.nil_sublist _, fun h => absurd rfl h, fun _ => rfl⟩
      | some map =>
          simp only [aliasOpAt, setAliasAt, prefixMapAddAt]
          split_ifs with halias hvalue hcontains hentry
          · exact ⟨List.nil_sublist _, fun h => absurd rfl h, fun _ => rfl⟩
          · exact ⟨List.nil_sublist _, fun h => absurd rfl h, fun _ => rfl⟩
          · exact ⟨List.Sublist.refl _, fun _ => ⟨rfl, rfl⟩, fun hall => absurd (hall _) hentry⟩
          · exact ⟨List.nil_sublist _, fun h => absurd rfl h, fun _ => rfl⟩
          · exact ⟨List.nil_sublist _, fun h => absurd rfl h, fun _ => rfl⟩
  | getAlias name => exact ⟨List.nil_sublist _, fun h => absurd rfl h, fun _ => rfl⟩
  | removeAlias name =>
      cases aliasMap with
      | none => exact ⟨List.nil_sublist _, fun h => absurd rfl h, fun _ => rfl⟩
      | some map =>
          simp only [aliasOpAt, Option.elim_some]
          split_ifs <;> exact ⟨List.nil_sublist _, fun h => absurd rfl h, fun _ => rfl⟩
  | clearAliases => exact ⟨List.nil_sublist _, fun h => absurd rfl h, fun _ => rfl⟩

/-- With all memory a call answers as the map does. -/
theorem aliasOpAt_of_met (hall : Met grants) (state : AliasState) (call : AliasOp) :
    ((aliasOpAt grants resolver state call).answer,
        (aliasOpAt grants resolver state call).state.aliasMap) =
      aliasOp resolver state.aliasMap call := by
  obtain ⟨numHandlers, handlersCapacity, aliasMap, asked⟩ := state
  cases call with
  | registerHandler =>
      simp only [aliasOpAt, registerHandlerAt, hall _ _, if_true]
      split_ifs <;> rfl
  | setAlias name value =>
      cases aliasMap with
      | none => rfl
      | some map =>
          simp only [aliasOpAt, setAliasAt, prefixMapAddAt, hall _ _, if_true]
          split_ifs <;> rfl
  | getAlias name => rfl
  | removeAlias name =>
      cases aliasMap with
      | none => rfl
      | some map =>
          simp only [aliasOpAt, aliasOp, Option.elim_some]
          split_ifs <;> rfl
  | clearAliases => rfl

theorem lost_sublist_aliasOpsAt (calls : List AliasOp) (state : AliasState) :
    ((aliasOpsAt grants resolver calls state).flatMap AliasOut.lost).Sublist
      (calls.flatMap AliasOp.values) := by
  induction calls generalizing state with
  | nil => exact List.Sublist.refl _
  | cons call calls ih => exact (aliasOpAt_lost resolver state call).1.append (ih _)

theorem lost_of_mem_aliasOpsAt {out : AliasOut} {calls : List AliasOp} {state : AliasState}
    (hout : out ∈ aliasOpsAt grants resolver calls state) :
    (out.lost ≠ [] → out.answer = .ret 0) ∧ ((∀ n, grants .entry n = true) → out.lost = []) := by
  induction calls generalizing state with
  | nil => exact absurd hout List.not_mem_nil
  | cons call calls ih =>
      rcases List.mem_cons.mp hout with rfl | hout
      · obtain ⟨-, hret, hentry⟩ := @aliasOpAt_lost grants resolver state call
        exact ⟨fun hlost => (hret hlost).1, hentry⟩
      · exact ih hout

theorem answers_of_met (hall : Met grants) (calls : List AliasOp) (state : AliasState) :
    (aliasOpsAt grants resolver calls state).map AliasOut.answer =
      aliasOps resolver calls state.aliasMap := by
  induction calls generalizing state with
  | nil => rfl
  | cons call calls ih =>
      have hcall := aliasOpAt_of_met resolver hall state call
      rw [aliasOpsAt, aliasOps, List.map_cons, ih, ← hcall]

end Calls

/-- **A parser loses only aliases that it has no entry for.** Whatever the calls are and whatever
the requests come to, the parser answers as the calls do without blocks, and once it has been freed
each block was freed once, but for those of the aliases that `prefix_map_add` had no memory for, for
which `cli_parser_set_alias` has returned 0. With all memory nothing is lost, and the answers are
those of the map. -/
theorem aliasSession_owns (grants : ParserGrants) (hkey : ∀ n, grants .key n = true)
    (resolver : Option (CString → Option CString)) (calls : List AliasOp)
    (hmost : calls.count .registerHandler ≤ 2 ^ 30) (asked : ℕ) :
    OwnsAt asked 0 (aliasSessionIn grants resolver calls) fun out _ left =>
      ∃ lost, left = aliasesHeld lost ∧
        out = some ((aliasSessionAt grants resolver calls asked).map AliasOut.answer) ∧
        lostValues lost = (aliasSessionAt grants resolver calls asked).flatMap AliasOut.lost ∧
        (lostValues lost).Sublist (calls.flatMap AliasOp.values) ∧
        (∀ call ∈ aliasSessionAt grants resolver calls asked,
          (call.lost ≠ [] → call.answer = .ret 0) ∧
          ((∀ n, grants .entry n = true) → call.lost = [])) ∧
        (Met grants → out = some (aliasOps resolver calls
          (if resolver.isSome then none else some .create))) := by
  unfold aliasSessionAt
  refine (owns_cliParserCreateIn resolver asked).step fun out n left hout => ?_
  obtain ⟨hcreate, rfl⟩ := hout
  rw [hcreate]
  cases out with
  | none =>
      refine ownsAt_pure ⟨[], rfl, rfl, rfl, List.nil_sublist _,
        fun call h => absurd h List.not_mem_nil, fun hall => ?_⟩
      rw [cliParserCreateAt, hall, hall, hall] at hcreate
      cases resolver <;> cases hcreate
  | some parser =>
      obtain ⟨hroom, hmap⟩ := room_cliParserCreateAt resolver hmost hcreate
      refine (owns_aliasOpsIn resolver hkey calls parser n hroom).step fun out n' left hout => ?_
      obtain ⟨next, lost, rfl, rfl, hanswers, hlost⟩ := hout
      refine ((owns_cliParserFreeIn next.2).ownsAt (cliParserFreeIn_asked next.2)).bind rfl
        fun _ n left hleft => ownsAt_pure ?_
      obtain ⟨rfl, rfl⟩ := hleft
      refine ⟨lost, zero_add _, congrArg some hanswers, hlost, ?_, ?_, fun hall => ?_⟩
      · rw [hlost]
        exact lost_sublist_aliasOpsAt resolver calls _
      · exact fun call hcall => lost_of_mem_aliasOpsAt resolver hcall
      · rw [hanswers, answers_of_met resolver hall, hmap]

/-- An alias that is set, and for which the map has no memory: the call returns 0, the alias is not
there, and its value is lost. -/
theorem aliasSession_owns_noEntry :
    OwnsAt 0 0 (aliasSessionIn (fun site _ => site ≠ .entry) none
        [.setAlias (cstr "ll") (cstr "ls -l"), .getAlias (cstr "ll")])
      fun out _ left => out = some [.ret 0, .value none] ∧
        ∃ lost, left = aliasesHeld lost ∧ lostValues lost = [cstr "ls -l"] := by
  have hanswers : (aliasSessionAt (fun site _ => decide (site ≠ .entry)) none
      [.setAlias (cstr "ll") (cstr "ls -l"), .getAlias (cstr "ll")] 0).map AliasOut.answer =
        [.ret 0, .value none] := by
    decide +kernel
  have hvalues : (aliasSessionAt (fun site _ => decide (site ≠ .entry)) none
      [.setAlias (cstr "ll") (cstr "ls -l"), .getAlias (cstr "ll")] 0).flatMap AliasOut.lost =
        [cstr "ls -l"] := by
    decide +kernel
  refine (aliasSession_owns (fun site _ => decide (site ≠ .entry)) (fun _ => rfl) none
    [.setAlias (cstr "ll") (cstr "ls -l"), .getAlias (cstr "ll")] (by decide) 0).mono
      fun out _ left hout => ?_
  obtain ⟨lost, hleft, hout, hlost, -⟩ := hout
  exact ⟨hout.trans (congrArg some hanswers), lost, hleft, hlost.trans hvalues⟩

end BasC
