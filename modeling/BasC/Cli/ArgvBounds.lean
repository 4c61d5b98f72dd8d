/-
# The bounds of the argument vector

`cmd_argv` has 65 slots, "64 args + command name" by its comment, and is filled without a
check of the count. The slot behind the last argument takes a `NULL`, so 63 arguments fit
next to the command name, and 64 words when an alias has been expanded. This module proves
that the vector is kept exactly by the runs in which no parse gives more.
-/

import BasC.Cli.Runs

namespace BasC

open CChar Lib Traced

variable {σ : Type}

/-- The largest argument count that the fill after this parse has room for. -/
def ParseSite.room : ParseSite → ℤ
  | .arguments => 63
  | .expandedAlias => 64

/-- A store is not beyond the last slot of `cmd_argv`. -/
def Event.WithinVector : Event → Prop
  | .stored store => store.index ≤ 64
  | _ => True

/-- A successful parse gives no more arguments than there is room for. -/
def Event.LeavesRoom : Event → Prop
  | .parsed site _ out => out.ret = 0 → out.argc ≤ site.room
  | _ => True

/-- The stores of a trace are within the vector exactly when its parses leave room. -/
def Balanced (events : List Event) : Prop :=
  (∀ e ∈ events, e.WithinVector) ↔ ∀ e ∈ events, e.LeavesRoom

theorem composable_balanced : Composable Balanced where
  nil := by simp [Balanced]
  append := by
    intro first second hfirst hsecond
    unfold Balanced at *
    rw [List.forall_mem_append, List.forall_mem_append, hfirst, hsecond]

/-- Only the given stores are made. -/
theorem mem_trace_assign {stores : List Store} {world : World σ} {e : Event}
    (he : e ∈ (assign stores : Cli σ PUnit).trace world) : ∃ store ∈ stores, e = .stored store := by
  induction stores with
  | nil => simp [assign] at he
  | cons store stores ih =>
      unfold assign at he
      split at he
      · rw [trace_bind, trace_emit, result_emit, Option.elim_some] at he
        rcases List.mem_cons.mp he with rfl | he
        · exact ⟨store, by simp, rfl⟩
        · obtain ⟨later, hlater, rfl⟩ := ih he
          exact ⟨later, by simp [hlater], rfl⟩
      · rw [trace_halt, List.mem_singleton] at he
        exact ⟨store, by simp, he⟩

/-- When a store outside the vector is called for, one is made. -/
theorem exists_outside_of_assign {stores : List Store} (world : World σ)
    (houtside : ∃ store ∈ stores, ¬ (0 ≤ store.index ∧ store.index < cmdArgvSize)) :
    ∃ store ∈ stores, ¬ (0 ≤ store.index ∧ store.index < cmdArgvSize) ∧
      .stored store ∈ (assign stores : Cli σ PUnit).trace world := by
  induction stores with
  | nil => simp at houtside
  | cons store stores ih =>
      unfold assign
      by_cases hinside : 0 ≤ store.index ∧ store.index < cmdArgvSize
      · rw [if_pos hinside, trace_bind, trace_emit, result_emit, Option.elim_some]
        obtain ⟨outside, hmem, hout⟩ := houtside
        rcases List.mem_cons.mp hmem with rfl | hmem
        · exact absurd hinside hout
        · obtain ⟨found, hfound, hbeyond, htrace⟩ := ih ⟨outside, hmem, hout⟩
          exact ⟨found, by simp [hfound], hbeyond, by simp [htrace]⟩
      · rw [if_neg hinside]
        exact ⟨store, by simp, hinside, by simp⟩

/-- Stores from slot 0 upwards are within the vector exactly when their last one is. -/
theorem assign_withinVector_iff {stores : List Store} {last : Store} (world : World σ)
    (hlast : last ∈ stores) (hrange : ∀ store ∈ stores, 0 ≤ store.index ∧
      store.index ≤ last.index) :
    (∀ e ∈ (assign stores : Cli σ PUnit).trace world, e.WithinVector) ↔ last.index ≤ 64 := by
  constructor
  · intro hwithin
    by_contra hbeyond
    have houtside : ¬ (0 ≤ last.index ∧ last.index < cmdArgvSize) := by
      unfold cmdArgvSize
      omega
    obtain ⟨store, hstore, hout, htrace⟩ := exists_outside_of_assign world ⟨last, hlast, houtside⟩
    have hle : store.index ≤ 64 := hwithin _ htrace
    have hlow := (hrange store hstore).1
    unfold cmdArgvSize at hout
    omega
  · rintro hle e he
    obtain ⟨store, hstore, rfl⟩ := mem_trace_assign he
    exact (hrange store hstore).2.trans hle

theorem firstStores_withinVector_iff (cmdName : CString) {parsedArgc : ℤ}
    {parsedArgv : List CString} (hcount : parsedArgv.length = parsedArgc.toNat)
    (world : World σ) :
    (∀ e ∈ (assign (firstStores cmdName parsedArgc parsedArgv) : Cli σ PUnit).trace world,
        e.WithinVector) ↔ parsedArgc ≤ 63 := by
  have hmembers : ∀ store ∈ firstStores cmdName parsedArgc parsedArgv,
      store.index = 0 ∨ store.index = parsedArgc + 1 ∨
        (0 ≤ store.index ∧ store.index ≤ parsedArgc) := by
    intro store hstore
    rcases List.mem_cons.mp hstore with rfl | hstore
    · exact .inl rfl
    · rcases List.mem_append.mp hstore with hstore | hstore
      · have hrange := index_of_mem_storesFrom hstore
        rw [List.length_map] at hrange
        omega
      · exact .inr (.inl (congrArg Store.index (List.mem_singleton.mp hstore)))
  by_cases hnegative : parsedArgc < 0
  · -- No index is beyond the vector; one may be before it.
    refine iff_of_true (fun e he => ?_) (by omega)
    obtain ⟨store, hstore, rfl⟩ := mem_trace_assign he
    have hindex := hmembers store hstore
    show store.index ≤ 64
    omega
  · have hrange : ∀ store ∈ firstStores cmdName parsedArgc parsedArgv,
        0 ≤ store.index ∧ store.index ≤ (⟨parsedArgc + 1, none⟩ : Store).index := by
      intro store hstore
      have hindex := hmembers store hstore
      simp only
      omega
    rw [assign_withinVector_iff world (by simp [firstStores]) hrange]
    simp only
    omega

theorem rebuiltStores_withinVector_iff {parsedArgc : ℤ} {parsedArgv : List CString}
    (hcount : (parsedArgv.length : ℤ) = parsedArgc) (world : World σ) :
    (∀ e ∈ (assign (rebuiltStores parsedArgc parsedArgv) : Cli σ PUnit).trace world,
        e.WithinVector) ↔ parsedArgc ≤ 64 := by
  have hrange : ∀ store ∈ rebuiltStores parsedArgc parsedArgv,
      0 ≤ store.index ∧ store.index ≤ (⟨parsedArgc, none⟩ : Store).index := by
    intro store hstore
    rcases List.mem_append.mp hstore with hstore | hstore
    · have hindex := index_of_mem_storesFrom hstore
      rw [List.length_map] at hindex
      simp only
      omega
    · rw [List.mem_singleton.mp hstore]
      simp only
      omega
  exact assign_withinVector_iff world (by simp [rebuiltStores]) hrange

theorem trace_emitError (parser : Parser σ) (message : CString) (world : World σ) :
    (emitError parser message).trace world = [.error message] := by
  unfold emitError
  rw [trace_bind, trace_emit, result_emit, Option.elim_some]
  cases parser.errorCallback <;> rfl

/-- A stop after an error report stores nothing. -/
theorem trace_emitError_pure {α : Type} (parser : Parser σ) (message : CString) (value : α)
    (world : World σ) :
    (do emitError parser message; pure value).trace world = [.error message] := by
  rw [trace_bind, trace_emitError]
  cases (emitError parser message).result world <;> rfl

/-- A piece that ends behind its stores leaves these stores. -/
theorem trace_assign_pure {α : Type} (stores : List Store) (value : α) (world : World σ) :
    (do assign stores; pure value).trace world = (assign stores).trace world := by
  rw [trace_bind]
  cases (assign stores : Cli σ PUnit).result world <;> simp

theorem trace_parseArgs_bind {α : Type} (parser : Parser σ) (site : ParseSite) (text : CString)
    (next : ArgsOut → Cli σ α) (world : World σ) :
    (parseArgs parser site text >>= next).trace world =
      .parsed site text (parser.argsParser text world).1 ::
        (next (parser.argsParser text world).1).trace (parser.argsParser text world).2 := rfl

/-- Stores and error reports are no parses. -/
theorem leavesRoom_of_mem_assign {stores : List Store} {world : World σ} {e : Event}
    (he : e ∈ (assign stores : Cli σ PUnit).trace world) : e.LeavesRoom := by
  obtain ⟨store, -, rfl⟩ := mem_trace_assign he
  trivial

/-- The first fill keeps the vector exactly when the parse before it left room. -/
theorem fillCommand_withinVector_iff (parser : Parser σ) (cmdName : CString) (out : ArgsOut)
    (world : World σ) :
    ((∀ e ∈ (fillCommand parser cmdName out).trace world, e.WithinVector) ↔
        (out.ret = 0 → out.argc ≤ 63)) ∧
      ∀ e ∈ (fillCommand parser cmdName out).trace world, e.LeavesRoom := by
  unfold fillCommand
  by_cases hret : out.ret = 0
  · rw [if_neg (not_not.mpr hret)]
    simp only
    rw [trace_assign_pure, firstStores_withinVector_iff cmdName out.length_strings]
    exact ⟨⟨fun hle _ => hle, fun hle => hle hret⟩, fun e he => leavesRoom_of_mem_assign he⟩
  · rw [if_pos hret, trace_emitError_pure]
    simp [hret, Event.WithinVector, Event.LeavesRoom]

/-- A later fill keeps the vector exactly when the parse before it left room. -/
theorem rebuildCommand_withinVector_iff (limits : Limits) (parser : Parser σ) (out : ArgsOut)
    (world : World σ) :
    ((∀ e ∈ (rebuildCommand limits parser out).trace world, e.WithinVector) ↔
        (out.ret = 0 → out.argc ≤ 64)) ∧
      ∀ e ∈ (rebuildCommand limits parser out).trace world, e.LeavesRoom := by
  unfold rebuildCommand
  by_cases hret : out.ret = 0
  · rw [if_neg (not_not.mpr hret)]
    have hlength := out.length_strings
    cases hstrings : out.strings with
    | nil =>
        rw [hstrings, List.length_nil] at hlength
        have hle : out.argc ≤ 64 := by omega
        simp only
        rw [trace_emitError_pure]
        simp [hle, Event.WithinVector, Event.LeavesRoom]
    | cons first rest =>
        have hcount := ArgsOut.length_cons_strings hstrings
        have hfill := rebuiltStores_withinVector_iff hcount world
        simp only
        rw [trace_bind, result_copyInto, Option.elim_some, trace_assign_pure,
          List.forall_mem_append, List.forall_mem_append, hfill]
        refine ⟨⟨fun hboth _ => hboth.2, fun hle => ⟨?_, hle hret⟩⟩, ?_,
          fun e he => leavesRoom_of_mem_assign he⟩
        · simp [copyInto, trace_bind, Event.WithinVector]
        · simp [copyInto, trace_bind, Event.LeavesRoom]
  · rw [if_pos hret, trace_emitError_pure]
    simp [hret, Event.WithinVector, Event.LeavesRoom]

theorem balanced_startCommand (parser : Parser σ) (cmdName : CString) (args : Option CString) :
    (startCommand parser cmdName args).Leaves Balanced := by
  intro world
  cases args with
  | none =>
      obtain ⟨hwithin, hroom⟩ := fillCommand_withinVector_iff parser cmdName .initial world
      exact iff_of_true (hwithin.mpr fun _ => by decide) hroom
  | some text =>
      obtain ⟨hwithin, hroom⟩ := fillCommand_withinVector_iff parser cmdName
        (parser.argsParser text world).1 (parser.argsParser text world).2
      unfold Balanced startCommand parseArguments
      rw [trace_parseArgs_bind, List.forall_mem_cons, List.forall_mem_cons, hwithin]
      exact ⟨fun hboth => ⟨hboth.2, hroom⟩, fun hboth => ⟨trivial, hboth.1⟩⟩

theorem balanced_expandAlias (limits : Limits) (parser : Parser σ) (value : CString)
    (st : Expanding) : (expandAlias limits parser value st).Leaves Balanced := by
  intro world
  generalize htext : expandedCmd limits value st.parsedArgv = text
  obtain ⟨hwithin, hroom⟩ := rebuildCommand_withinVector_iff limits parser
    (parser.argsParser text world).1 (parser.argsParser text world).2
  unfold Balanced expandAlias
  rw [trace_bind, trace_emit, result_emit, Option.elim_some, htext, trace_parseArgs_bind,
    List.singleton_append, List.forall_mem_cons, List.forall_mem_cons, List.forall_mem_cons,
    List.forall_mem_cons, hwithin]
  exact ⟨fun hall => ⟨trivial, hall.2.2, hroom⟩, fun hall => ⟨trivial, trivial, hall.2.1⟩⟩

theorem balanced_singleton {e : Event} (hwithin : e.WithinVector) (hroom : e.LeavesRoom) :
    Balanced [e] := by
  simp [Balanced, hwithin, hroom]

theorem balanced_executeStatement (limits : Limits) (parser : Parser σ) (statement : CString) :
    (executeStatement limits parser statement).Leaves Balanced := by
  have hR : Sequential fun (α : Type) (m : Cli σ α) => m.Leaves Balanced :=
    composable_balanced.sequential
  have herror : ∀ message, (emit (.error message) : Cli σ PUnit).Leaves Balanced :=
    fun _ => leaves_emit (balanced_singleton trivial trivial)
  refine hR.bind ?_ fun prepared => ?_
  · exact sequential_prepareStatement hR
      (fun _ _ => leaves_emit (balanced_singleton trivial trivial)) herror
      (balanced_startCommand parser) (balanced_expandAlias limits parser) statement
  · cases prepared with
    | ends ret => exact hR.pure ret
    | ready command redir =>
        exact sequential_dispatch hR herror
          (fun _ => leaves_emit (balanced_singleton trivial trivial))
          (fun _ => leaves_emit (balanced_singleton trivial trivial))

/-- **The vector is kept exactly by the runs whose parses leave room.** For every parser,
world and line, all stores of a run are within `cmd_argv` if and only if the argument
parser gives at most 63 arguments for each command and at most 64 words for each expanded
alias. -/
theorem parseLine_withinVector_iff (parser : Parser σ) (line : CString) (world : World σ) :
    (∀ store, .stored store ∈ (parseLine .source parser line).trace world → store.index ≤ 64) ↔
      ∀ site text out, .parsed site text out ∈ (parseLine .source parser line).trace world →
        out.ret = 0 → out.argc ≤ site.room := by
  have hbalanced := sequential_parseLine composable_balanced.sequential
    (fun _ _ => leaves_emit (balanced_singleton trivial trivial))
    (balanced_executeStatement .source parser) line world
  constructor
  · intro hstores
    have hroom := hbalanced.mp fun e he => by
      cases e <;> first | trivial | exact hstores _ he
    exact fun site text out hparsed => hroom _ hparsed
  · intro hparses
    have hwithin := hbalanced.mpr fun e he => by
      cases e <;> first | trivial | exact hparses _ _ _ he
    exact fun store hstored => hwithin _ hstored

/-- The index of a store. -/
def Event.storeIndex? : Event → Option ℤ
  | .stored store => some store.index
  | _ => none

/-- With 64 arguments the `NULL` behind the last one is stored outside the vector. -/
theorem not_withinVector_of_64_arguments :
    ¬ ∀ (line : CString) (store : Store),
      .stored store ∈ (parseLine .source bareParser line).trace ⟨some .create, ⟨⟩⟩ →
        store.index ≤ 64 := by
  intro hall
  have hstored : (65 : ℤ) ∈
      ((parseLine .source bareParser
        (star :: (List.replicate 64 [blank, star]).flatten)).trace
          ⟨some .create, ⟨⟩⟩).filterMap Event.storeIndex? := by
    decide +kernel
  obtain ⟨e, he, hindex⟩ := List.mem_filterMap.mp hstored
  cases e with
  | stored store =>
      have hle := hall _ store he
      have hstore : store.index = 65 := by simpa [Event.storeIndex?] using hindex
      omega
  | _ => simp [Event.storeIndex?] at hindex

end BasC
