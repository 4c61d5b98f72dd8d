/-
# Calls to the timer from several threads

`start_timer_thread` holds the lock from its beginning to its end. `stop_timer_thread` gives
it up between its two sections, to wait for the thread of the timer, and each of the three
steps reads `s_timer_ctx` again. The threads of timers take their own steps meanwhile.
-/

import BasC.Proc.Timer

namespace BasC

open Lib

/-- What a `stop_timer_thread` that found a timer has to do next. -/
inductive StopPhase
  | join
  | free
  deriving DecidableEq

/-- A context in memory, and whether the thread that was started on it has returned. -/
structure TimerCell where
  context : TimerContext
  exited : Bool
  freed : Bool

/-- `s_timer_ctx`, the contexts, and the callers that are inside `stop_timer_thread`. -/
structure Timers where
  current : Option ℕ
  cells : List TimerCell
  stopping : ℕ → Option StopPhase

inductive TimersAction
  /-- A caller goes through `start_timer_thread`. -/
  | start (caller : ℕ) (opts : Option TimerOptions) (outcomes : StartOutcomes)
  /-- A caller goes through the first section of `stop_timer_thread`. -/
  | stop (caller : ℕ)
  | join (caller : ℕ)
  | free (caller : ℕ)
  /-- The thread of a context looks at `quit` and, if its interval is over, triggers. -/
  | poll (cell : ℕ) (triggers : Bool)

/-- What a caller sees of a step. -/
inductive TimersLabel
  | started (opts : Option TimerOptions) (ok : Bool)
  | stopBegun
  | silent

inductive TimersOutcome
  | blocked
  /-- `NULL` or a freed context is used. -/
  | faults
  | next (label : TimersLabel) (timers : Timers)

namespace Timers

/-- No timer has been started. -/
def initial : Timers := ⟨none, [], fun _ => none⟩

/-- No call is unfinished. -/
def Idle (s : Timers) : Prop := ∀ caller, s.stopping caller = none

/-- The context that `s_timer_ctx` points at, if it can be used. -/
def used (s : Timers) : Option (ℕ × TimerCell) :=
  s.current.bind fun c => (s.cells[c]?).bind fun cell =>
    if cell.freed then none else some (c, cell)

def setCell (s : Timers) (c : ℕ) (cell : TimerCell) : Timers :=
  { s with cells := s.cells.set c cell }

def setStopping (s : Timers) (caller : ℕ) (phase : Option StopPhase) : Timers :=
  { s with stopping := Function.update s.stopping caller phase }

/-- `start_timer_thread`. -/
def start (s : Timers) (opts : Option TimerOptions) (outcomes : StartOutcomes) :
    TimersOutcome :=
  if opts.isNone then .next (.started none false) s
  else if s.current.isNone then
    match startTimerThread none opts outcomes with
    | (some context, ok) =>
        .next (.started opts ok)
          { s with current := some s.cells.length, cells := s.cells ++ [⟨context, false, false⟩] }
    | (none, ok) => .next (.started opts ok) s
  else
    match s.used with
    | none => .faults
    | some (c, cell) =>
        match startTimerThread (some cell.context) opts outcomes with
        | (some context, ok) =>
            .next (.started opts ok) (s.setCell c { cell with context := context })
        | (none, ok) => .next (.started opts ok) s

/-- The first section of `stop_timer_thread`: set `quit`. -/
def stop (s : Timers) (caller : ℕ) : TimersOutcome :=
  if s.current.isNone then .next .stopBegun s
  else
    match s.used with
    | none => .faults
    | some (c, cell) =>
        .next .stopBegun ((s.setCell c
          { cell with context := { cell.context with quit := true } }).setStopping caller
            (some .join))

/-- `pthread_join(s_timer_ctx->thread, NULL)`. -/
def join (s : Timers) (caller : ℕ) : TimersOutcome :=
  match s.used with
  | none => .faults
  | some (_, cell) =>
      if cell.exited then .next .silent (s.setStopping caller (some .free)) else .blocked

/-- The second section: free the context and clear `s_timer_ctx`. -/
def free (s : Timers) (caller : ℕ) : TimersOutcome :=
  match s.used with
  | none => .faults
  | some (c, cell) =>
      .next .silent ({ s.setCell c { cell with freed := true } with current := none }.setStopping
        caller none)

/-- One round of `timer_thread`. -/
def poll (s : Timers) (c : ℕ) (triggers : Bool) : TimersOutcome :=
  match s.cells[c]? with
  | none => .blocked
  | some cell =>
      if cell.exited then .blocked
      else if cell.freed then .faults
      else if cell.context.quit then .next .silent (s.setCell c { cell with exited := true })
      else if triggers then
        .next .silent (s.setCell c { cell with context := (timerTrigger cell.context).2 })
      else .next .silent s

/-- One step of a caller or of a timer. -/
def step (s : Timers) : TimersAction → TimersOutcome
  | .start caller opts outcomes =>
      if s.stopping caller = none then s.start opts outcomes else .blocked
  | .stop caller => if s.stopping caller = none then s.stop caller else .blocked
  | .join caller => if s.stopping caller = some .join then s.join caller else .blocked
  | .free caller => if s.stopping caller = some .free then s.free caller else .blocked
  | .poll c triggers => s.poll c triggers

/-- A step, whoever takes it. -/
def AnyStep (s : Timers) (label : TimersLabel) (t : Timers) : Prop :=
  ∃ action, s.step action = .next label t

/-- The options that a timer has after it was started or updated with `given`. -/
def Carries (stored given : TimerOptions) : Prop :=
  stored.intervalMs = effectiveInterval given.intervalMs ∧
    stored.doStackdump = given.doStackdump ∧ stored.doHealth = given.doHealth ∧
    stored.doDumpFd = given.doDumpFd ∧
    (given.stackdumpFile.isEmpty = false →
      stored.stackdumpFile = .print given.stackdumpFile.1)

/-- A timer with these options is running. -/
def RunsWith (s : Timers) (given : TimerOptions) : Prop :=
  ∃ c cell, s.current = some c ∧ s.cells[c]? = some cell ∧ cell.freed = false ∧
    cell.exited = false ∧ cell.context.quit = false ∧ Carries cell.context.opts given

/-- If a start has succeeded and no stop was begun after it, then once no call is unfinished
the timer runs with the options of that start or a later one. -/
def KeepsUpdates (labels : List TimersLabel) (s : Timers) : Prop :=
  ∀ before opts after, labels = before ++ .started (some opts) true :: after →
    .stopBegun ∉ after → s.Idle →
      ∃ given, (given = opts ∨ .started (some given) true ∈ after) ∧ s.RunsWith given

/-- A call is begun only when no other one is between the sections of a stop. -/
def Orderly (s : Timers) : TimersAction → Prop
  | .start _ _ _ => s.Idle
  | .stop _ => s.Idle
  | _ => True

/-- A step that is taken in order. -/
def OrderlyStep (s : Timers) (label : TimersLabel) (t : Timers) : Prop :=
  ∃ action, s.Orderly action ∧ s.step action = .next label t

/-! ## What an orderly run keeps -/

/-- No timer, and no call to it. -/
def Stopped (s : Timers) : Prop := s.Idle ∧ s.current = none

/-- The timer runs, and no call is in between. -/
def Running (s : Timers) : Prop :=
  s.Idle ∧ ∃ c cell, s.current = some c ∧ s.cells[c]? = some cell ∧ cell.freed = false ∧
    cell.exited = false ∧ cell.context.quit = false

/-- One call is on its way to stop the timer. -/
def Stopping (s : Timers) : Prop :=
  ∃ caller phase c cell, s.stopping = Function.update (fun _ => none) caller (some phase) ∧
    s.current = some c ∧ s.cells[c]? = some cell ∧ cell.freed = false ∧
    (phase = .free → cell.exited = true)

/-- One of these is so, and the thread of a context that was freed has returned. -/
structure Ordered (s : Timers) : Prop where
  mode : s.Stopped ∨ s.Running ∨ s.Stopping
  exited : ∀ (c : ℕ) cell, s.cells[c]? = some cell → cell.freed = true → cell.exited = true

/-- What a step does to the timer: a start that succeeds leaves it running, and a timer that
is not stopped or updated goes on running. -/
structure Advance (s : Timers) (label : TimersLabel) (t : Timers) : Prop where
  ordered : t.Ordered
  started : ∀ opts, label = .started (some opts) true → t.Idle ∧ t.RunsWith opts
  kept : ∀ given, label ≠ .stopBegun → s.Idle → s.RunsWith given →
    t.Idle ∧ (t.RunsWith given ∨ ∃ opts, label = .started (some opts) true)

/-- A step that is not taken, or one that advances. -/
def Advances (s : Timers) (outcome : TimersOutcome) : Prop :=
  outcome = .blocked ∨ ∃ label t, outcome = .next label t ∧ s.Advance label t

variable {s t : Timers} {c : ℕ} {cell : TimerCell}

theorem initial_ordered : initial.Ordered :=
  ⟨.inl ⟨fun _ => rfl, rfl⟩, fun _ _ hcell => by cases hcell⟩

theorem used_of_cell (hcurrent : s.current = some c) (hcell : s.cells[c]? = some cell)
    (hfreed : cell.freed = false) : s.used = some (c, cell) := by
  simp only [used, hcurrent, hcell, hfreed, Option.bind_some, Bool.false_eq_true, if_false]

/-- A context that is written is there afterwards, and the others are as before. -/
theorem getElem?_setCell (hcell : s.cells[c]? = some cell) (new : TimerCell) (d : ℕ) :
    (s.setCell c new).cells[d]? = if c = d then some new else s.cells[d]? := by
  have hlt : c < s.cells.length := (List.getElem?_eq_some_iff.mp hcell).1
  simp only [setCell, List.getElem?_set, hlt, if_true]

theorem getElem?_setCell_self (hcell : s.cells[c]? = some cell) (new : TimerCell) :
    (s.setCell c new).cells[c]? = some new := by
  rw [getElem?_setCell hcell, if_pos rfl]

/-- While no call is in between, there is no timer or a running one. -/
theorem Ordered.mode_of_idle (hs : s.Ordered) (hidle : s.Idle) : s.Stopped ∨ s.Running := by
  rcases hs.mode with hstopped | hruns | ⟨caller, phase, -, -, hstopping, -⟩
  · exact .inl hstopped
  · exact .inr hruns
  · have hbusy := hidle caller
    rw [hstopping, Function.update_self] at hbusy
    cases hbusy

theorem exited_setCell (hexited : ∀ (c : ℕ) cell, s.cells[c]? = some cell →
      cell.freed = true → cell.exited = true)
    (hcell : s.cells[c]? = some cell) {new : TimerCell}
    (hnew : new.freed = true → new.exited = true) (d : ℕ) (other : TimerCell)
    (hother : (s.setCell c new).cells[d]? = some other) (hfreed : other.freed = true) :
    other.exited = true := by
  rw [getElem?_setCell hcell] at hother
  split_ifs at hother with heq
  · obtain rfl := Option.some.inj hother
    exact hnew hfreed
  · exact hexited d other hother hfreed

/-- Nothing happens to the timer. -/
theorem advance_refl (hs : s.Ordered) {label : TimersLabel}
    (hlabel : ∀ opts, label ≠ .started (some opts) true) : s.Advance label s :=
  ⟨hs, fun opts heq => absurd heq (hlabel opts), fun _ _ hidle hruns => ⟨hidle, .inl hruns⟩⟩

theorem carries_updateContext (context : TimerContext) (opts : TimerOptions) :
    Carries (updateContext context opts).opts opts := by
  refine ⟨rfl, rfl, rfl, rfl, fun hfile => ?_⟩
  simp only [updateContext, hfile, Bool.false_eq_true, if_false]

theorem carries_newContext (files : TempFiles) (opts : TimerOptions) :
    Carries (newContext files opts).opts opts := by
  refine ⟨rfl, rfl, rfl, rfl, fun hfile => ?_⟩
  simp only [newContext, chooseFile, hfile, Bool.false_eq_true, if_false]

/-- A start leaves a new timer, or the one that runs with new options. -/
theorem start_advances (hs : s.Ordered) (hidle : s.Idle) (opts : Option TimerOptions)
    (outcomes : StartOutcomes) : s.Advances (s.start opts outcomes) := by
  cases opts with
  | none => exact .inr ⟨_, s, rfl, advance_refl hs fun _ hlabel => by cases hlabel⟩
  | some opts =>
      rcases hs.mode_of_idle hidle with
        ⟨-, hnone⟩ | ⟨-, c, cell, hcurrent, hcell, hfreed, hexited, hquit⟩
      · by_cases hfails : outcomes.calloc = true ∧ outcomes.pthreadCreate = true
        · have hstart : s.start (some opts) outcomes =
              .next (.started (some opts) true)
                { s with
                  current := some s.cells.length
                  cells := s.cells ++ [⟨newContext outcomes.files opts, false, false⟩] } := by
            simp [start, hnone, startTimerThread, hfails.1, hfails.2]
          refine .inr ⟨_, _, hstart, ⟨?_, ?_⟩, ?_, ?_⟩
          · exact .inr (.inl ⟨hidle, _, _, rfl, List.getElem?_concat_length, rfl, rfl, rfl⟩)
          · intro d other hother hfreed
            rw [List.getElem?_append] at hother
            split_ifs at hother
            · exact hs.exited d other hother hfreed
            · obtain rfl := List.mem_singleton.mp (List.mem_of_getElem? hother)
              cases hfreed
          · rintro _ ⟨⟩
            exact ⟨hidle, _, _, rfl, List.getElem?_concat_length, rfl, rfl, rfl,
              carries_newContext _ _⟩
          · exact fun _ _ _ _ => ⟨hidle, .inr ⟨opts, rfl⟩⟩
        · have hstart : s.start (some opts) outcomes = .next (.started (some opts) false) s := by
            have hnothing : startTimerThread none (some opts) outcomes = (none, false) := by
              cases hcalloc : outcomes.calloc <;> cases hcreate : outcomes.pthreadCreate <;>
                simp_all [startTimerThread]
            simp [start, hnone, hnothing]
          exact .inr ⟨_, s, hstart, advance_refl hs fun _ hlabel => by cases hlabel⟩
      · have hstart : s.start (some opts) outcomes =
            .next (.started (some opts) true)
              (s.setCell c { cell with context := updateContext cell.context opts }) := by
          simp [start, hcurrent, used_of_cell hcurrent hcell hfreed, startTimerThread]
        have hthere := getElem?_setCell_self hcell
          { cell with context := updateContext cell.context opts }
        refine .inr ⟨_, _, hstart, ⟨?_, ?_⟩, ?_, ?_⟩
        · exact .inr (.inl ⟨hidle, c, _, hcurrent, hthere, hfreed, hexited, hquit⟩)
        · exact exited_setCell hs.exited hcell (fun hyes => by simp [hfreed] at hyes)
        · rintro _ ⟨⟩
          exact ⟨hidle, c, _, hcurrent, hthere, hfreed, hexited, hquit,
            carries_updateContext _ _⟩
        · exact fun _ _ _ _ => ⟨hidle, .inr ⟨opts, rfl⟩⟩

/-- The first section of a stop sets `quit`, or finds no timer. -/
theorem stop_advances (hs : s.Ordered) (hidle : s.Idle) (caller : ℕ) :
    s.Advances (s.stop caller) := by
  rcases hs.mode_of_idle hidle with
    ⟨-, hnone⟩ | ⟨-, c, cell, hcurrent, hcell, hfreed, hexited, hquit⟩
  · refine .inr ⟨_, s, by simp only [stop, hnone, Option.isNone_none, if_true]; rfl, ?_⟩
    exact advance_refl hs nofun
  · have hstop : s.stop caller = .next .stopBegun ((s.setCell c
        { cell with context := { cell.context with quit := true } }).setStopping caller
          (some .join)) := by
      simp [stop, hcurrent, used_of_cell hcurrent hcell hfreed]
    have hthere := getElem?_setCell_self hcell
      { cell with context := { cell.context with quit := true } }
    have hnobody : s.stopping = fun _ => none := funext hidle
    refine .inr ⟨_, _, hstop, ⟨.inr (.inr ?_), ?_⟩, nofun, fun _ hlabel => absurd rfl hlabel⟩
    · refine ⟨caller, .join, c, _, ?_, hcurrent, hthere, hfreed, nofun⟩
      simp only [setStopping, setCell, hnobody]
    · exact exited_setCell hs.exited hcell (fun hyes => by simp [hfreed] at hyes)

/-- A call that is between its sections is the only one, and finds the timer. -/
theorem stopping_of_phase (hs : s.Ordered) {caller : ℕ} {phase : StopPhase}
    (hphase : s.stopping caller = some phase) :
    ∃ c cell, s.stopping = Function.update (fun _ => none) caller (some phase) ∧
      s.current = some c ∧ s.cells[c]? = some cell ∧ cell.freed = false ∧
      (phase = .free → cell.exited = true) := by
  rcases hs.mode with ⟨hidle, -⟩ | ⟨hidle, -⟩ |
    ⟨other, phase', c, cell, hstopping, hrest⟩
  · exact absurd (hidle caller) (by simp [hphase])
  · exact absurd (hidle caller) (by simp [hphase])
  · by_cases hsame : caller = other
    · subst hsame
      rw [hstopping, Function.update_self] at hphase
      obtain rfl := Option.some.inj hphase
      exact ⟨c, cell, hstopping, hrest⟩
    · rw [hstopping, Function.update_of_ne hsame] at hphase
      cases hphase

theorem join_advances (hs : s.Ordered) {caller : ℕ}
    (hphase : s.stopping caller = some .join) : s.Advances (s.join caller) := by
  obtain ⟨c, cell, hstopping, hcurrent, hcell, hfreed, -⟩ := stopping_of_phase hs hphase
  have hused := used_of_cell hcurrent hcell hfreed
  cases hexited : cell.exited with
  | false => exact .inl (by simp [join, hused, hexited])
  | true =>
      have hjoin : s.join caller = .next .silent (s.setStopping caller (some .free)) := by
        simp [join, hused, hexited]
      refine .inr ⟨_, _, hjoin, ⟨.inr (.inr ?_), hs.exited⟩, nofun, fun _ _ hidle => ?_⟩
      · refine ⟨caller, .free, c, cell, ?_, hcurrent, hcell, hfreed, fun _ => hexited⟩
        simp only [setStopping, hstopping, Function.update_idem]
      · exact absurd (hidle caller) (by simp [hphase])

theorem free_advances (hs : s.Ordered) {caller : ℕ}
    (hphase : s.stopping caller = some .free) : s.Advances (s.free caller) := by
  obtain ⟨c, cell, hstopping, hcurrent, hcell, hfreed, hexited⟩ := stopping_of_phase hs hphase
  have hfree : s.free caller = .next .silent
      ({ s.setCell c { cell with freed := true } with current := none }.setStopping
        caller none) := by
    simp [free, used_of_cell hcurrent hcell hfreed]
  refine .inr ⟨_, _, hfree, ⟨.inl ⟨fun other => ?_, rfl⟩, ?_⟩, nofun, fun _ _ hidle => ?_⟩
  · simp only [setStopping, setCell, hstopping, Function.update_idem]
    exact congrFun (Function.update_eq_self caller fun _ => none) other
  · exact exited_setCell hs.exited hcell (fun _ => hexited rfl)
  · exact absurd (hidle caller) (by simp [hphase])

/-- What a timer's own thread may change of its context: it counts, and returns when it is
told to quit. -/
structure Polled (cell new : TimerCell) : Prop where
  freed_eq : new.freed = cell.freed
  quit_eq : new.context.quit = cell.context.quit
  opts_eq : new.context.opts = cell.context.opts
  exited : cell.exited = true → new.exited = true
  goes_on : cell.context.quit = false → new.exited = cell.exited

theorem polled_setCell {d : ℕ} {new other : TimerCell} (hcell : s.cells[c]? = some cell)
    (hpolled : Polled cell new) (hother : s.cells[d]? = some other) :
    ∃ other', (s.setCell c new).cells[d]? = some other' ∧ Polled other other' := by
  rw [getElem?_setCell hcell]
  by_cases hsame : c = d
  · subst hsame
    obtain rfl := Option.some.inj (hcell.symm.trans hother)
    exact ⟨new, if_pos rfl, hpolled⟩
  · exact ⟨other, (if_neg hsame).trans hother, rfl, rfl, rfl, id, fun _ => rfl⟩

/-- So it keeps the timer. -/
theorem advance_setCell (hs : s.Ordered) (hcell : s.cells[c]? = some cell) {new : TimerCell}
    (hpolled : Polled cell new) : s.Advance .silent (s.setCell c new) := by
  refine ⟨⟨?_, ?_⟩, nofun, ?_⟩
  · rcases hs.mode with hstopped | ⟨hidle, d, other, hcurrent, hother, hfreed, hexited, hquit⟩ |
      ⟨caller, phase, d, other, hstopping, hcurrent, hother, hfreed, hexited⟩
    · exact .inl hstopped
    · obtain ⟨other', hother', hkeeps⟩ := polled_setCell hcell hpolled hother
      exact .inr (.inl ⟨hidle, d, other', hcurrent, hother', hkeeps.freed_eq.trans hfreed,
        (hkeeps.goes_on hquit).trans hexited, hkeeps.quit_eq.trans hquit⟩)
    · obtain ⟨other', hother', hkeeps⟩ := polled_setCell hcell hpolled hother
      exact .inr (.inr ⟨caller, phase, d, other', hstopping, hcurrent, hother',
        hkeeps.freed_eq.trans hfreed, fun hphase => hkeeps.exited (hexited hphase)⟩)
  · refine exited_setCell hs.exited hcell fun hfreed => ?_
    exact hpolled.exited (hs.exited c cell hcell (hpolled.freed_eq.symm.trans hfreed))
  · rintro given - hidle ⟨d, other, hcurrent, hother, hfreed, hexited, hquit, hcarries⟩
    obtain ⟨other', hother', hkeeps⟩ := polled_setCell hcell hpolled hother
    exact ⟨hidle, .inl ⟨d, other', hcurrent, hother', hkeeps.freed_eq.trans hfreed,
      (hkeeps.goes_on hquit).trans hexited, hkeeps.quit_eq.trans hquit,
      hkeeps.opts_eq ▸ hcarries⟩⟩

theorem poll_advances (hs : s.Ordered) (d : ℕ) (triggers : Bool) :
    s.Advances (s.poll d triggers) := by
  rw [poll]
  cases hcell : s.cells[d]? with
  | none => exact .inl rfl
  | some cell =>
      simp only
      split_ifs with hexited hfreed hquit htriggers
      · exact .inl rfl
      · exact absurd (hs.exited d cell hcell hfreed) hexited
      · exact .inr ⟨_, _, rfl, advance_setCell hs hcell
          ⟨rfl, rfl, rfl, fun _ => rfl, fun hgoes => absurd (hgoes.symm.trans hquit) nofun⟩⟩
      · exact .inr ⟨_, _, rfl, advance_setCell hs hcell ⟨rfl, rfl, rfl, id, fun _ => rfl⟩⟩
      · exact .inr ⟨_, s, rfl, advance_refl hs nofun⟩

/-- **No orderly step uses a context that is not there.** -/
theorem step_advances (hs : s.Ordered) {action : TimersAction} (horderly : s.Orderly action) :
    s.Advances (s.step action) := by
  cases action with
  | start caller opts outcomes =>
      simp only [step, horderly caller, if_true]
      exact start_advances hs horderly opts outcomes
  | stop caller =>
      simp only [step, horderly caller, if_true]
      exact stop_advances hs horderly caller
  | join caller =>
      rw [step]
      split_ifs with hphase
      · exact join_advances hs hphase
      · exact .inl rfl
  | free caller =>
      rw [step]
      split_ifs with hphase
      · exact free_advances hs hphase
      · exact .inl rfl
  | poll d triggers => exact poll_advances hs d triggers

theorem advance_of_orderlyStep (hs : s.Ordered) {label : TimersLabel}
    (hstep : s.OrderlyStep label t) : s.Advance label t := by
  obtain ⟨action, horderly, haction⟩ := hstep
  rcases step_advances hs horderly with hblocked | ⟨label', t', hnext, hadvance⟩
  · rw [hblocked] at haction
    cases haction
  · rw [hnext] at haction
    cases haction
    exact hadvance

/-- A timer that runs goes on, with its options or later ones, until a stop is begun. -/
theorem runsWith_of_runs {after : List TimersLabel} {opts : TimerOptions} (hs : s.Ordered)
    (hidle : s.Idle) (hruns : s.RunsWith opts) (hafter : Runs OrderlyStep s after t)
    (hstop : .stopBegun ∉ after) :
    ∃ given, (given = opts ∨ .started (some given) true ∈ after) ∧ t.RunsWith given := by
  induction hafter generalizing opts with
  | nil s => exact ⟨opts, .inl rfl, hruns⟩
  | @cons s u t label after first rest ih =>
      rw [List.mem_cons, not_or] at hstop
      have hadvance := advance_of_orderlyStep hs first
      obtain ⟨hidle', hgoes | ⟨later, hlater⟩⟩ :=
        hadvance.kept opts (Ne.symm hstop.1) hidle hruns
      · obtain ⟨given, heq | hmem, hgiven⟩ := ih hadvance.ordered hidle' hgoes hstop.2
        · exact ⟨given, .inl heq, hgiven⟩
        · exact ⟨given, .inr (List.mem_cons_of_mem _ hmem), hgiven⟩
      · obtain ⟨-, hupdated⟩ := hadvance.started later hlater
        obtain ⟨given, heq | hmem, hgiven⟩ := ih hadvance.ordered hidle' hupdated hstop.2
        · exact ⟨given, .inr (by rw [heq, hlater]; exact List.mem_cons_self), hgiven⟩
        · exact ⟨given, .inr (List.mem_cons_of_mem _ hmem), hgiven⟩

theorem ordered_of_runs {labels : List TimersLabel}
    (hruns : Runs OrderlyStep initial labels s) : s.Ordered :=
  hruns.invariant (fun _ _ _ hs hstep => (advance_of_orderlyStep hs hstep).ordered)
    initial_ordered

/-- **Calls that do not overlap with a stop lose no update.** -/
theorem keepsUpdates_of_runs {labels : List TimersLabel}
    (hruns : Runs OrderlyStep initial labels s) :
    (∀ action, s.Orderly action → s.step action ≠ .faults) ∧ KeepsUpdates labels s := by
  constructor
  · intro action horderly hfaults
    rcases step_advances (ordered_of_runs hruns) horderly with hblocked | ⟨_, _, hnext, -⟩
    · exact absurd (hfaults.symm.trans hblocked) nofun
    · exact absurd (hfaults.symm.trans hnext) nofun
  · rintro before opts after rfl hstop -
    obtain ⟨u, hbefore, hrest⟩ := (Runs.append_iff _ _).mp hruns
    cases hrest with
    | cons first hafter =>
        have hadvance := advance_of_orderlyStep (ordered_of_runs hbefore) first
        obtain ⟨hidle, hstarted⟩ := hadvance.started opts rfl
        exact runsWith_of_runs hadvance.ordered hidle hstarted hafter hstop

/-- Every library call succeeds. -/
def smoothly : StartOutcomes := ⟨true, true, namedFiles⟩

/-- `timer -h -w 1s`. -/
def everySecond : TimerOptions := ⟨1000, false, true, false, .print []⟩

/-- A timer is started and stopped, and another one is started and updated. -/
def restartLabels : List TimersLabel :=
  [.started (some everySecond) true, .stopBegun, .silent, .silent, .silent,
    .started (some everySecond) true, .started (some everySecond) true]

/-- The updates behind a stop are kept. -/
theorem keepsUpdates_restart :
    ∃ s, Runs OrderlyStep initial restartLabels s ∧
      (∀ action, s.Orderly action → s.step action ≠ .faults) ∧ KeepsUpdates restartLabels s := by
  have hrun : ∃ s, Runs OrderlyStep initial restartLabels s := by
    refine ⟨_, .cons ⟨.start 0 (some everySecond) smoothly, fun _ => rfl, rfl⟩
      (.cons ⟨.stop 1, fun _ => rfl, rfl⟩ (.cons ⟨.poll 0 false, trivial, rfl⟩
        (.cons ⟨.join 1, trivial, rfl⟩ (.cons ⟨.free 1, trivial, rfl⟩
          (.cons ⟨.start 0 (some everySecond) smoothly, fun caller => ?_, rfl⟩
            (.cons ⟨.start 1 (some everySecond) smoothly, fun caller => ?_, rfl⟩ (.nil _)))))))⟩
    all_goals
      by_cases hcaller : caller = 1
      · subst hcaller
        rfl
      · simp [setStopping, setCell, initial]
  obtain ⟨s, hruns⟩ := hrun
  exact ⟨s, hruns, keepsUpdates_of_runs hruns⟩

/-- A start between the sections of a stop updates a timer that is about to be freed. -/
theorem not_keepsUpdates_between :
    ¬ ∀ labels s, Runs AnyStep initial labels s →
      (∀ action, s.step action ≠ .faults) ∧ KeepsUpdates labels s := by
  intro hkeeps
  have hrun : ∃ s, Runs AnyStep initial
      ([.started (some everySecond) true, .stopBegun] ++
        .started (some everySecond) true :: [.silent, .silent, .silent]) s ∧
      s.Idle ∧ s.current = none := by
    refine ⟨_, .cons ⟨.start 0 (some everySecond) smoothly, rfl⟩ (.cons ⟨.stop 1, rfl⟩
      (.cons ⟨.start 0 (some everySecond) smoothly, rfl⟩ (.cons ⟨.poll 0 false, rfl⟩
        (.cons ⟨.join 1, rfl⟩ (.cons ⟨.free 1, rfl⟩ (.nil _)))))), ?_, rfl⟩
    intro caller
    by_cases hcaller : caller = 1
    · subst hcaller
      rfl
    · simp [setStopping, setCell, initial]
  obtain ⟨s, hruns, hidle, hnone⟩ := hrun
  obtain ⟨given, -, c, cell, hcurrent, -⟩ :=
    (hkeeps _ s hruns).2 _ everySecond _ rfl (by simp) hidle
  rw [hnone] at hcurrent
  cases hcurrent

end Timers

end BasC
