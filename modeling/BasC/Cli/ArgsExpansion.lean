/-
# The expansion of words, store by store

The second pass of `args_parse` again, with what one call of it cannot show. The
enumeration function has a memory: its answer may depend on the calls made before, so a
directory may change between two words of one line. And every store into the argument
vector is logged with the capacity of the vector at that moment.

What a text contributes is said by a relation, one rule for each way the source ends up
appending; the second pass follows it from alternative to alternative and from word to
word, and no word disappears.
-/

import BasC.Cli.ArgsLiteral
import BasC.Lib.Transition

namespace BasC

open CChar Lib

/-- An enumeration function with a memory: the calls made before are its first argument. -/
structure EnumHistory where
  enumFunc : Option (List EnumCall → EnumCall → EnumResult)
  enumContext : Option CString

namespace EnumHistory

/-- The enumeration function as the next call finds it. -/
def after (history : EnumHistory) (calls : List EnumCall) : ArgsEnv :=
  ⟨history.enumFunc.map fun enumFunc => enumFunc calls, history.enumContext⟩

/-- An enumeration function that has no memory. -/
def always (env : ArgsEnv) : EnumHistory :=
  ⟨env.enumFunc.map fun enumFunc _ => enumFunc, env.enumContext⟩

@[simp]
theorem after_always (env : ArgsEnv) (calls : List EnumCall) : (always env).after calls = env := by
  obtain ⟨enumFunc, enumContext⟩ := env
  cases enumFunc <;> rfl

end EnumHistory

/-- One store `args[index] = value`, with the capacity of `args` at that moment. -/
structure ArgStore where
  index : ℕ
  capacity : ℕ
  value : Option CString
  deriving DecidableEq

/-- The second pass under way: the argument vector, the calls made, and the stores. -/
structure SecondPass extends Expansion where
  stores : List ArgStore

namespace SecondPass

/-- Before the first raw word. -/
def start : SecondPass := ⟨⟨argVector, []⟩, []⟩

/-- Double the capacity if the vector is full, and store one argument. -/
def append (st : SecondPass) (arg : CString) : SecondPass :=
  { st with
    args := st.args.push arg
    stores := st.stores ++ [⟨st.args.items.length, st.args.grown, some arg⟩] }

/-- Store the matches one after the other. -/
def appendAll (st : SecondPass) (matchArray : List CString) : SecondPass :=
  matchArray.foldl append st

/-- The wildcard expansion of one text. The source has it twice, for a brace alternative and
for a raw word. -/
def expandText (history : EnumHistory) (st : SecondPass) (text : CString) : SecondPass :=
  if containsWildcard text then
    let wildcard := expandWildcard (history.after st.calls) text
    let called : SecondPass := { st with calls := st.calls ++ wildcard.calls }
    if wildcard.ret = 0 then
      if 0 < wildcard.matchArray.length then called.appendAll wildcard.matchArray
      else called.append text
    else called.append text
  else st.append text

/-- The body of the second loop of `args_parse`. -/
def expandArg (history : EnumHistory) (st : SecondPass) (arg : CString) : SecondPass :=
  if containsBrace arg then
    match expandBrace arg with
    | [] => st.expandText history arg
    | braceExpansions => braceExpansions.foldl (expandText history) st
  else st.expandText history arg

/-- The second loop of `args_parse`. -/
def run (history : EnumHistory) (rawArgs : List CString) : SecondPass :=
  rawArgs.foldl (expandArg history) start

/-- The capacity for the terminating `NULL`: one more if the vector is full. -/
def capacityForNull (st : SecondPass) : ℕ :=
  if st.args.capacity ≤ st.args.items.length then st.args.capacity + 1 else st.args.capacity

/-- All stores, with the terminating `NULL`. -/
def allStores (st : SecondPass) : List ArgStore :=
  st.stores ++ [⟨st.args.items.length, st.capacityForNull, none⟩]

end SecondPass

/-- A whole call of `args_parse`: what it hands back, the stores into the argument vector,
and the calls of the enumeration function. -/
structure ArgsRun where
  out : ArgsOut
  stores : List ArgStore
  calls : List EnumCall

/-- `args_parse` with its stores. -/
def argsParseRun (history : EnumHistory) (line : CString) : ArgsRun :=
  match rawArgs line with
  | none => ⟨.failure, [], []⟩
  | some raw =>
      let st := SecondPass.run history raw.items
      ⟨.success st.args.items, st.allStores, st.calls⟩

/-- The body of the second loop adds the alternatives of the raw word, one after the other. -/
theorem addArg_eq (env : ArgsEnv) (out : Expansion) (arg : CString) :
    addArg env out arg = (alternatives arg).foldl (addWildcard env) out := by
  unfold addArg alternatives
  by_cases hbrace : containsBrace arg = true
  · cases hexpand : expandBrace arg <;> simp [hbrace]
  · simp [hbrace]

namespace SecondPass

@[simp]
theorem append_toExpansion (st : SecondPass) (arg : CString) :
    (st.append arg).toExpansion = ⟨st.args.push arg, st.calls⟩ := rfl

@[simp]
theorem appendAll_toExpansion (st : SecondPass) (matchArray : List CString) :
    (st.appendAll matchArray).toExpansion = ⟨st.args.pushAll matchArray, st.calls⟩ := by
  induction matchArray generalizing st with
  | nil => rfl
  | cons arg matchArray ih => exact ih (st.append arg)

/-- One text is added as the enumeration function without a memory would have it now. -/
theorem expandText_toExpansion (history : EnumHistory) (st : SecondPass) (text : CString) :
    (st.expandText history text).toExpansion =
      addWildcard (history.after st.calls) st.toExpansion text := by
  unfold expandText addWildcard
  by_cases hwild : containsWildcard text = true
  · by_cases hret : (expandWildcard (history.after st.calls) text).ret = 0
    · by_cases hfound : 0 < (expandWildcard (history.after st.calls) text).matchArray.length
      · simp only [if_pos hwild, if_pos hret, if_pos hfound, appendAll_toExpansion]
      · simp only [if_pos hwild, if_pos hret, if_neg hfound, append_toExpansion]
    · simp only [if_pos hwild, if_neg hret, append_toExpansion]
  · simp only [if_neg hwild, append_toExpansion]

theorem expandArg_eq (history : EnumHistory) (st : SecondPass) (arg : CString) :
    st.expandArg history arg = (alternatives arg).foldl (expandText history) st := by
  unfold expandArg alternatives
  by_cases hbrace : containsBrace arg = true
  · cases hexpand : expandBrace arg <;> simp [hbrace]
  · simp [hbrace]

theorem foldl_expandText_toExpansion (env : ArgsEnv) (st : SecondPass) (texts : List CString) :
    (texts.foldl (expandText (.always env)) st).toExpansion =
      texts.foldl (addWildcard env) st.toExpansion := by
  induction texts generalizing st with
  | nil => rfl
  | cons text texts ih =>
      rw [List.foldl_cons, ih, expandText_toExpansion, EnumHistory.after_always, List.foldl_cons]

theorem run_always (env : ArgsEnv) (rawArgs : List CString) :
    (run (.always env) rawArgs).toExpansion = secondPass env rawArgs := by
  have hloop : ∀ st : SecondPass, (rawArgs.foldl (expandArg (.always env)) st).toExpansion =
      rawArgs.foldl (addArg env) st.toExpansion := by
    induction rawArgs with
    | nil => exact fun _ => rfl
    | cons arg rawArgs ih =>
        intro st
        rw [List.foldl_cons, List.foldl_cons, ih, expandArg_eq, foldl_expandText_toExpansion,
          addArg_eq]
  exact hloop start

end SecondPass

/-- With an enumeration function that has no memory, the run is `args_parse`. -/
theorem argsParseRun_always (env : ArgsEnv) (line : CString) :
    (argsParseRun (.always env) line).out = argsParse env line ∧
      (argsParseRun (.always env) line).calls = argsParseCalls env line := by
  unfold argsParseRun argsParse argsParseCalls
  cases rawArgs line with
  | none => exact ⟨rfl, rfl⟩
  | some raw =>
      dsimp only
      rw [← SecondPass.run_always]
      exact ⟨rfl, rfl⟩

/-- What one text adds to the argument vector, and the calls made for it, when the
enumeration function answers as `env` says. -/
inductive Contributes (env : ArgsEnv) (text : CString) : List CString → List EnumCall → Prop
  | noWildcard (hwild : containsWildcard text = false) : Contributes env text [text] []
  | noFunction (hwild : containsWildcard text = true) (henum : env.enumFunc = none) :
      Contributes env text [text] []
  | failed {enumFunc : EnumCall → EnumResult} (hwild : containsWildcard text = true)
      (henum : env.enumFunc = some enumFunc)
      (hstatus : (enumFunc (wildcardCall env text)).status ≠ 0) :
      Contributes env text [text] [wildcardCall env text]
  | unmatched {enumFunc : EnumCall → EnumResult} (hwild : containsWildcard text = true)
      (henum : env.enumFunc = some enumFunc)
      (hstatus : (enumFunc (wildcardCall env text)).status = 0)
      (hnone : ∀ item ∈ (enumFunc (wildcardCall env text)).items,
        wildcardCallback (patternParts text).1 (patternParts text).2 item = none) :
      Contributes env text [text] [wildcardCall env text]
  | matched {enumFunc : EnumCall → EnumResult} {matchArray : List CString}
      (hwild : containsWildcard text = true) (henum : env.enumFunc = some enumFunc)
      (hstatus : (enumFunc (wildcardCall env text)).status = 0)
      (hmatch : (enumFunc (wildcardCall env text)).items.filterMap
        (wildcardCallback (patternParts text).1 (patternParts text).2) = matchArray)
      (hfound : matchArray ≠ []) :
      Contributes env text matchArray [wildcardCall env text]

/-- A text never contributes nothing. -/
theorem Contributes.ne_nil {env : ArgsEnv} {text : CString} {words : List CString}
    {calls : List EnumCall} (hcontributes : Contributes env text words calls) : words ≠ [] := by
  cases hcontributes with
  | noWildcard | noFunction | failed | unmatched => exact List.cons_ne_nil _ _
  | matched _ _ _ _ hfound => exact hfound

/-- The source follows the rules. -/
theorem contributes_wildcardWords (env : ArgsEnv) (text : CString) :
    Contributes env text (wildcardWords env text) (wildcardCalls env text) := by
  unfold wildcardWords wildcardCalls wildcardMatches
  cases hwild : containsWildcard text with
  | false => exact .noWildcard hwild
  | true =>
      unfold expandWildcard
      cases henum : env.enumFunc with
      | none => exact .noFunction hwild henum
      | some enumFunc =>
          by_cases hstatus : (enumFunc (wildcardCall env text)).status = 0
          · cases hmatch : (enumFunc (wildcardCall env text)).items.filterMap
                (wildcardCallback (patternParts text).1 (patternParts text).2) with
            | nil =>
                have hnone := List.filterMap_eq_nil_iff.mp hmatch
                simpa [hstatus, hmatch] using Contributes.unmatched hwild henum hstatus hnone
            | cons found rest =>
                have hfound : found :: rest ≠ [] := List.cons_ne_nil _ _
                simpa [hstatus, hmatch] using
                  Contributes.matched hwild henum hstatus hmatch hfound
          · simpa [hstatus] using Contributes.failed hwild henum hstatus

/-- One text becomes some words: the enumeration function answers as it does after the calls
made before, and the calls made for the text come behind those. -/
def Replaces (history : EnumHistory) (calls : List EnumCall) (label : CString × List CString)
    (calls' : List EnumCall) : Prop :=
  ∃ made, Contributes (history.after calls) label.1 label.2 made ∧ calls' = calls ++ made

/-- One raw word becomes what its alternatives become, one after the other. -/
def ExpandsTo (history : EnumHistory) (calls : List EnumCall) (label : CString × List CString)
    (calls' : List EnumCall) : Prop :=
  ∃ pieces : List (CString × List CString), pieces.map Prod.fst = alternatives label.1 ∧
    Runs (Replaces history) calls pieces calls' ∧ label.2 = (pieces.map Prod.snd).flatten

/-- **A raw word never expands to nothing.** It has an alternative, and no alternative
contributes nothing. -/
theorem ExpandsTo.ne_nil {history : EnumHistory} {calls calls' : List EnumCall}
    {label : CString × List CString} (hexpands : ExpandsTo history calls label calls') :
    label.2 ≠ [] := by
  obtain ⟨pieces, halternatives, hruns, hlabel⟩ := hexpands
  have hparts : ∀ piece ∈ pieces, piece.2 ≠ [] := hruns.forall_label fun _ _ _ hreplaces => by
    obtain ⟨made, hcontributes, -⟩ := hreplaces
    exact hcontributes.ne_nil
  cases pieces with
  | nil => exact absurd halternatives.symm (alternatives_ne_nil label.1)
  | cons piece pieces =>
      rw [hlabel]
      simp [hparts piece (by simp)]

namespace SecondPass

/-- One turn of the inner loop. -/
theorem expandText_step (history : EnumHistory) (st : SecondPass) (text : CString) :
    ∃ words, Replaces history st.calls (text, words) (st.expandText history text).calls ∧
      (st.expandText history text).args.items = st.args.items ++ words := by
  have hadd := expandText_toExpansion history st text
  obtain ⟨hitems, hcalls⟩ := addWildcard_spec (history.after st.calls) st.toExpansion text
  rw [← hadd] at hitems hcalls
  exact ⟨_, ⟨_, contributes_wildcardWords _ text, hcalls⟩, hitems⟩

/-- One turn of the outer loop. -/
theorem expandArg_step (history : EnumHistory) (st : SecondPass) (arg : CString) :
    ∃ words, ExpandsTo history st.calls (arg, words) (st.expandArg history arg).calls ∧
      (st.expandArg history arg).args.items = st.args.items ++ words := by
  obtain ⟨pieces, halternatives, hruns, hitems⟩ :=
    Runs.of_foldl (SecondPass.expandText history) (·.calls) (·.args.items)
      (expandText_step history) st (alternatives arg)
  rw [← expandArg_eq] at hruns hitems
  exact ⟨_, ⟨pieces, halternatives, hruns, rfl⟩, hitems⟩

theorem run_expands (history : EnumHistory) (rawArgs : List CString) :
    ∃ labels : List (CString × List CString), labels.map Prod.fst = rawArgs ∧
      Runs (ExpandsTo history) [] labels (run history rawArgs).calls ∧
      (run history rawArgs).args.items = (labels.map Prod.snd).flatten :=
  Runs.of_foldl (SecondPass.expandArg history) (·.calls) (·.args.items)
    (expandArg_step history) start rawArgs

/-- The log is complete and sound: the stores go to one slot after the other, they store the
arguments, and each is inside the allocation. -/
structure Logged (st : SecondPass) : Prop where
  values : st.stores.map ArgStore.value = st.args.items.map some
  indices : st.stores.map ArgStore.index = List.range st.args.items.length
  inside : ∀ store ∈ st.stores, store.index < store.capacity

theorem logged_start : Logged start := ⟨rfl, rfl, List.forall_mem_nil _⟩

/-- Growing before the store keeps the store inside. -/
theorem Logged.append {st : SecondPass} (hlogged : st.Logged) (arg : CString) :
    (st.append arg).Logged where
  values := by simp [SecondPass.append, hlogged.values]
  indices := by simp [SecondPass.append, hlogged.indices, List.range_succ]
  inside := by
    intro store hstore
    rcases List.mem_append.mp hstore with hstore | hstore
    · exact hlogged.inside store hstore
    · rw [List.mem_singleton.mp hstore]
      exact st.args.length_add_slack_lt_grown

/-- A call of the enumeration function stores nothing. -/
theorem Logged.called {st : SecondPass} (hlogged : st.Logged) (calls : List EnumCall) :
    Logged { st with calls := calls } :=
  ⟨hlogged.values, hlogged.indices, hlogged.inside⟩

theorem Logged.appendAll {st : SecondPass} (hlogged : st.Logged) (matchArray : List CString) :
    (st.appendAll matchArray).Logged :=
  List.foldlRecOn matchArray SecondPass.append hlogged fun _ hlogged arg _ => hlogged.append arg

theorem Logged.expandText {st : SecondPass} (hlogged : st.Logged) (history : EnumHistory)
    (text : CString) : (st.expandText history text).Logged := by
  unfold SecondPass.expandText
  dsimp only
  split
  · split
    · split
      · exact (hlogged.called _).appendAll _
      · exact (hlogged.called _).append text
    · exact (hlogged.called _).append text
  · exact hlogged.append text

theorem Logged.expandArg {st : SecondPass} (hlogged : st.Logged) (history : EnumHistory)
    (arg : CString) : (st.expandArg history arg).Logged := by
  rw [expandArg_eq]
  exact List.foldlRecOn (alternatives arg) (SecondPass.expandText history) hlogged
    fun _ hlogged text _ => hlogged.expandText history text

theorem logged_run (history : EnumHistory) (rawArgs : List CString) :
    (run history rawArgs).Logged :=
  List.foldlRecOn rawArgs (SecondPass.expandArg history) logged_start
    fun _ hlogged arg _ => hlogged.expandArg history arg

/-- The terminating `NULL` has a slot of its own. -/
theorem length_lt_capacityForNull (st : SecondPass) :
    st.args.items.length < st.capacityForNull := by
  have hroom := st.args.room
  unfold capacityForNull
  split <;> omega

theorem Logged.allStores_inside {st : SecondPass} (hlogged : st.Logged) :
    ∀ store ∈ st.allStores, store.index < store.capacity := by
  intro store hstore
  rcases List.mem_append.mp hstore with hstore | hstore
  · exact hlogged.inside store hstore
  · rw [List.mem_singleton.mp hstore]
    exact st.length_lt_capacityForNull

end SecondPass

theorem argsParseRun_of_rawArgs (history : EnumHistory) {line : CString}
    {raw : GrowArray CString 0} (hraw : rawArgs line = some raw) :
    argsParseRun history line =
      ⟨.success (SecondPass.run history raw.items).args.items,
        (SecondPass.run history raw.items).allStores,
        (SecondPass.run history raw.items).calls⟩ := by
  simp only [argsParseRun, hraw]

end BasC
