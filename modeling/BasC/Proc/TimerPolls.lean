/-
# The polls of the timer

`timer_thread` sleeps for 100 ms at a time, adds them up, and triggers when they reach the
interval, which may change between two polls. The sum is an `int`: it overflows when an interval is
so close to `INT_MAX` that the sum of the last multiple of 100 below it and 100 is beyond.
-/

import BasC.Proc.Timer

namespace BasC

/-- `TIMER_POLL_MS`. -/
def timerPollMs : ℤ := 100

/-- A running thread: its context, and `accumulated_ms`. -/
structure TimerThread where
  context : TimerContext
  accumulatedMs : ℤ

/-- The interval of the next poll. -/
def TimerThread.interval (thread : TimerThread) : ℤ :=
  effectiveInterval thread.context.opts.intervalMs

inductive TimerPoll
  /-- `quit` is set. -/
  | exits
  /-- The sum is beyond `INT_MAX`, and the behaviour is undefined. -/
  | overflows
  /-- What is done if the timer triggers. -/
  | next (trigger : Option (List TimerAction)) (thread : TimerThread)

/-- One round of the loop of `timer_thread`. -/
def timerPoll (thread : TimerThread) : TimerPoll :=
  if thread.context.quit then .exits
  else
    let accumulatedMs := thread.accumulatedMs + timerPollMs
    if intMax < accumulatedMs then .overflows
    else if accumulatedMs < thread.interval then
      .next none { thread with accumulatedMs := accumulatedMs }
    else
      let out := timerTrigger thread.context
      .next (some out.1) ⟨out.2, 0⟩

/-- What happens while the thread runs. -/
inductive TimerThreadEvent
  /-- `start_timer_thread` finds it running. -/
  | update (opts : TimerOptions)
  /-- `stop_timer_thread` sets `quit`. -/
  | stop
  | poll

/-- A run of `timer_thread`: what each poll has done, and the thread behind them; `none` when a sum
overflows. -/
def timerRun : TimerThread → List TimerThreadEvent →
    Option (List (Option (List TimerAction)) × TimerThread)
  | thread, [] => some ([], thread)
  | thread, .update opts :: events =>
      timerRun { thread with context := updateContext thread.context opts } events
  | thread, .stop :: events =>
      timerRun { thread with context := { thread.context with quit := true } } events
  | thread, .poll :: events =>
      match timerPoll thread with
      | .exits => some ([], thread)
      | .overflows => none
      | .next trigger next => (timerRun next events).map fun out => (trigger :: out.1, out.2)

/-- The thread that `start_timer_thread` creates. -/
def newThread (files : TempFiles) (opts : TimerOptions) : TimerThread := ⟨newContext files opts, 0⟩

/-- An event that leaves the interval as it is, and the thread running. -/
def KeepsInterval (intervalMs : ℤ) : TimerThreadEvent → Prop
  | .update opts => effectiveInterval opts.intervalMs = intervalMs
  | .stop => False
  | .poll => True

/-- The polls of an interval: `⌈interval / 100⌉`. -/
def pollsOf (intervalMs : ℤ) : ℕ := ((intervalMs + 99) / 100).toNat

/-- The number of polls. -/
def countPolls : List TimerThreadEvent → ℕ
  | [] => 0
  | .poll :: events => countPolls events + 1
  | .update _ :: events => countPolls events
  | .stop :: events => countPolls events

/-- In every run `accumulated_ms` fits an `int`; and from a trigger on, or the start, while the
interval is constant, every `⌈interval / 100⌉`-th poll triggers and no other. -/
structure Fires (start : TimerThread) (events : List TimerThreadEvent) : Prop where
  fits : ∃ polls thread, timerRun start events = some (polls, thread) ∧
    thread.accumulatedMs ≤ intMax
  periodic : ∀ before during polls thread, events = before ++ during →
    timerRun start before = some (polls, thread) → (∀ last ∈ polls.getLast?, last.isSome = true) →
    thread.context.quit = false → (∀ event ∈ during, KeepsInterval thread.interval event) →
      ∃ more behind, timerRun thread during = some (more, behind) ∧
        more.map Option.isSome =
          (List.range (countPolls during)).map fun i => decide (pollsOf thread.interval ∣ i + 1)

/-- The longest interval whose sum does not overflow. -/
def longestInterval : ℤ := 2147483600

/-- The interval is not so long. -/
def ShortInterval (opts : TimerOptions) : Prop :=
  effectiveInterval opts.intervalMs ≤ longestInterval

theorem effectiveInterval_pos (intervalMs : ℤ) : 0 < effectiveInterval intervalMs := by
  rw [effectiveInterval]
  split_ifs with hpos
  · exact hpos
  · decide

theorem effectiveInterval_idem (intervalMs : ℤ) :
    effectiveInterval (effectiveInterval intervalMs) = effectiveInterval intervalMs :=
  if_pos (effectiveInterval_pos intervalMs)

theorem interval_newThread (files : TempFiles) (opts : TimerOptions) :
    (newThread files opts).interval = effectiveInterval opts.intervalMs :=
  effectiveInterval_idem opts.intervalMs

theorem interval_update (thread : TimerThread) (opts : TimerOptions) :
    ({ thread with context := updateContext thread.context opts } : TimerThread).interval =
      effectiveInterval opts.intervalMs :=
  effectiveInterval_idem opts.intervalMs

theorem interval_trigger (thread : TimerThread) (accumulatedMs : ℤ) :
    TimerThread.interval ⟨(timerTrigger thread.context).2, accumulatedMs⟩ = thread.interval := rfl

/-- The sum is that of so many polls. -/
def TimerThread.Polled (thread : TimerThread) (polls : ℕ) : Prop :=
  thread.accumulatedMs = timerPollMs * polls

/-- A poll, if there have been fewer than the longest interval has. -/
theorem timerPoll_of_polled {thread : TimerThread} {polls : ℕ} (hpolled : thread.Polled polls)
    (hquit : thread.context.quit = false) (hpolls : polls < pollsOf longestInterval) :
    timerPoll thread =
      if timerPollMs * (polls + 1 : ℕ) < thread.interval then
        .next none { thread with accumulatedMs := timerPollMs * (polls + 1 : ℕ) }
      else .next (some (timerTrigger thread.context).1) ⟨(timerTrigger thread.context).2, 0⟩ := by
  have hsum : thread.accumulatedMs + timerPollMs = timerPollMs * (polls + 1 : ℕ) := by
    rw [hpolled, Nat.cast_add, Nat.cast_one, mul_add, mul_one]
  have hfits : ¬ intMax < timerPollMs * (polls + 1 : ℕ) := by
    unfold pollsOf longestInterval at hpolls
    unfold intMax timerPollMs
    omega
  rw [timerPoll, if_neg (by simp [hquit])]
  simp only [hsum]
  rw [if_neg hfits]

/-- `⌈interval / 100⌉` polls reach the interval, and no fewer. -/
theorem timerPollMs_mul_lt_iff (intervalMs : ℤ) (polls : ℕ) :
    timerPollMs * polls < intervalMs ↔ polls < pollsOf intervalMs := by
  unfold timerPollMs pollsOf
  omega

theorem pollsOf_mono {first second : ℤ} (hle : first ≤ second) :
    pollsOf first ≤ pollsOf second := by
  unfold pollsOf
  omega

theorem polled_zero (context : TimerContext) : TimerThread.Polled ⟨context, 0⟩ 0 := rfl

/-- A poll behind which the thread runs on. -/
theorem timerRun_poll {thread next : TimerThread} {trigger : Option (List TimerAction)}
    (hpoll : timerPoll thread = .next trigger next) (events : List TimerThreadEvent) :
    timerRun thread (.poll :: events) =
      (timerRun next events).map fun out => (trigger :: out.1, out.2) := by
  rw [timerRun, hpoll]

/-- What holds in every state of a run. -/
structure TimerThread.Sound (thread : TimerThread) : Prop where
  short : thread.interval ≤ longestInterval
  polled : ∃ polls, thread.Polled polls ∧ polls < pollsOf longestInterval

theorem TimerThread.Sound.fits {thread : TimerThread} (hthread : thread.Sound) :
    thread.accumulatedMs ≤ intMax := by
  obtain ⟨polls, hpolled, hpolls⟩ := hthread.polled
  rw [hpolled]
  unfold pollsOf longestInterval timerPollMs intMax at *
  omega

/-- A poll does not overflow, and leaves a sound thread. -/
theorem timerPoll_sound {thread : TimerThread} (hthread : thread.Sound)
    (hquit : thread.context.quit = false) :
    ∃ trigger next, timerPoll thread = .next trigger next ∧ next.Sound := by
  obtain ⟨hshort, polls, hpolled, hpolls⟩ := hthread
  rw [timerPoll_of_polled hpolled hquit hpolls]
  split_ifs with hwaits
  · refine ⟨none, _, rfl, hshort, polls + 1, rfl, ?_⟩
    exact ((timerPollMs_mul_lt_iff _ _).mp hwaits).trans_le (pollsOf_mono hshort)
  · exact ⟨_, _, rfl, hshort, 0, polled_zero _, by decide⟩

theorem timerRun_sound {thread : TimerThread} (hthread : thread.Sound)
    {events : List TimerThreadEvent}
    (hevents : ∀ opts, .update opts ∈ events → ShortInterval opts) :
    ∃ polls behind, timerRun thread events = some (polls, behind) ∧ behind.Sound := by
  induction events generalizing thread with
  | nil => exact ⟨[], thread, rfl, hthread⟩
  | cons event events ih =>
      have hrest := fun opts hmem => hevents opts (List.mem_cons_of_mem event hmem)
      cases event with
      | update opts =>
          refine ih ⟨?_, hthread.polled⟩ hrest
          rw [interval_update]
          exact hevents opts List.mem_cons_self
      | stop => exact ih ⟨hthread.short, hthread.polled⟩ hrest
      | poll =>
          cases hquit : thread.context.quit with
          | true =>
              have hexits : timerPoll thread = .exits := if_pos hquit
              rw [timerRun, hexits]
              exact ⟨[], thread, rfl, hthread⟩
          | false =>
              obtain ⟨trigger, next, hpoll, hnext⟩ := timerPoll_sound hthread hquit
              obtain ⟨polls, behind, hrun, hbehind⟩ := ih hnext hrest
              refine ⟨trigger :: polls, behind, ?_, hbehind⟩
              rw [timerRun_poll hpoll, hrun, Option.map_some]

theorem accumulatedMs_of_trigger {thread next : TimerThread} {actions : List TimerAction}
    (hpoll : timerPoll thread = .next (some actions) next) : next.accumulatedMs = 0 := by
  rw [timerPoll] at hpoll
  simp only at hpoll
  split_ifs at hpoll
  · cases (TimerPoll.next.inj hpoll).1
  · rw [← (TimerPoll.next.inj hpoll).2]

/-- After a trigger the sum is 0, as long as it is the last poll. -/
theorem accumulatedMs_of_timerRun {thread behind : TimerThread} {events : List TimerThreadEvent}
    {polls : List (Option (List TimerAction))}
    (hrun : timerRun thread events = some (polls, behind))
    (hlast : ∀ last ∈ polls.getLast?, last.isSome = true) :
    behind.accumulatedMs = if polls = [] then thread.accumulatedMs else 0 := by
  induction events generalizing thread polls with
  | nil =>
      obtain ⟨rfl, rfl⟩ := Prod.mk.inj (Option.some.inj hrun)
      rfl
  | cons event events ih =>
      cases event with
      | update opts =>
          rw [timerRun] at hrun
          have hrest := ih hrun hlast
          exact hrest
      | stop =>
          rw [timerRun] at hrun
          have hrest := ih hrun hlast
          exact hrest
      | poll =>
          cases hpoll : timerPoll thread with
          | exits =>
              rw [timerRun, hpoll] at hrun
              obtain ⟨rfl, rfl⟩ := Prod.mk.inj (Option.some.inj hrun)
              rfl
          | overflows =>
              rw [timerRun, hpoll] at hrun
              cases hrun
          | next trigger next =>
              rw [timerRun_poll hpoll] at hrun
              obtain ⟨⟨rest, found⟩, hrest, hout⟩ := Option.map_eq_some_iff.mp hrun
              obtain ⟨rfl, rfl⟩ := Prod.mk.inj hout
              rw [if_neg (List.cons_ne_nil _ _)]
              cases rest with
              | nil =>
                  obtain ⟨actions, rfl⟩ := Option.isSome_iff_exists.mp (hlast trigger rfl)
                  rw [ih hrest fun last hmem => absurd hmem (Option.not_mem_none last), if_pos rfl]
                  exact accumulatedMs_of_trigger hpoll
              | cons second rest =>
                  rw [List.getLast?_cons_cons] at hlast
                  rw [ih hrest hlast, if_neg (List.cons_ne_nil _ _)]

/-- The polls behind a poll are counted on from it. -/
theorem map_range_countPolls_poll (found : ℕ → Bool) (events : List TimerThreadEvent) :
    (List.range (countPolls (.poll :: events))).map found =
      found 0 :: (List.range (countPolls events)).map fun i => found (i + 1) := by
  rw [countPolls, List.range_succ_eq_map, List.map_cons, List.map_map]
  rfl

/-- While the interval is constant, the polls are counted up to it. -/
theorem timerRun_constant {thread : TimerThread} {polls : ℕ} (hpolled : thread.Polled polls)
    (hpolls : polls < pollsOf thread.interval) (hquit : thread.context.quit = false)
    (hshort : thread.interval ≤ longestInterval) {events : List TimerThreadEvent}
    (hevents : ∀ event ∈ events, KeepsInterval thread.interval event) :
    ∃ more behind, timerRun thread events = some (more, behind) ∧
      more.map Option.isSome = (List.range (countPolls events)).map fun i =>
        decide (pollsOf thread.interval ∣ polls + i + 1) := by
  induction events generalizing thread polls with
  | nil => exact ⟨[], thread, rfl, rfl⟩
  | cons event events ih =>
      have hevent := hevents event List.mem_cons_self
      have hrest := fun event hmem => hevents event (List.mem_cons_of_mem _ hmem)
      cases event with
      | update opts =>
          have hinterval : ({ thread with context := updateContext thread.context opts } :
              TimerThread).interval = thread.interval := (interval_update thread opts).trans hevent
          have hrun := @ih { thread with context := updateContext thread.context opts } polls
            hpolled (hinterval ▸ hpolls) hquit (hinterval ▸ hshort) (hinterval ▸ hrest)
          rw [hinterval] at hrun
          exact hrun
      | stop => exact absurd hevent id
      | poll =>
          have hpoll := timerPoll_of_polled hpolled hquit (hpolls.trans_le (pollsOf_mono hshort))
          rw [map_range_countPolls_poll]
          by_cases hwaits : polls + 1 < pollsOf thread.interval
          · rw [if_pos ((timerPollMs_mul_lt_iff _ _).mpr hwaits)] at hpoll
            obtain ⟨more, behind, hrun, hmore⟩ := @ih
              { thread with accumulatedMs := timerPollMs * (polls + 1 : ℕ) } (polls + 1)
              rfl hwaits hquit hshort hrest
            have hnot : ¬ pollsOf thread.interval ∣ polls + 0 + 1 :=
              Nat.not_dvd_of_pos_of_lt (Nat.succ_pos _) hwaits
            refine ⟨none :: more, behind, by rw [timerRun_poll hpoll, hrun, Option.map_some], ?_⟩
            rw [List.map_cons, hmore, decide_eq_false hnot]
            refine congrArg (false :: ·) (List.map_congr_left fun i _ => ?_)
            have hindex : polls + 1 + i + 1 = polls + (i + 1) + 1 := by omega
            rw [hindex]
            rfl
          · have hlast : pollsOf thread.interval = polls + 1 := by omega
            rw [if_neg (mt (timerPollMs_mul_lt_iff _ _).mp hwaits)] at hpoll
            obtain ⟨more, behind, hrun, hmore⟩ := @ih ⟨(timerTrigger thread.context).2, 0⟩ 0
              (polled_zero _) (Nat.zero_lt_of_lt hpolls) hquit hshort hrest
            have hyes : pollsOf thread.interval ∣ polls + 0 + 1 := by rw [hlast, Nat.add_zero]
            refine ⟨some (timerTrigger thread.context).1 :: more, behind,
              by rw [timerRun_poll hpoll, hrun, Option.map_some], ?_⟩
            rw [List.map_cons, hmore, decide_eq_true hyes]
            refine congrArg (true :: ·) (List.map_congr_left fun i _ => ?_)
            -- the polls before the trigger are a whole interval
            have hindex : polls + (i + 1) + 1 = pollsOf thread.interval + (0 + i + 1) := by omega
            rw [interval_trigger, hindex]
            exact decide_eq_decide.mpr (Nat.dvd_add_right (Nat.dvd_refl _)).symm

/-- **The timer fires in every run** whose intervals are at most 2147483600. -/
theorem fires_of_shortInterval (files : TempFiles) {opts : TimerOptions}
    (hopts : ShortInterval opts) {events : List TimerThreadEvent}
    (hevents : ∀ opts, .update opts ∈ events → ShortInterval opts) :
    Fires (newThread files opts) events := by
  have hstart : (newThread files opts).Sound := by
    refine ⟨?_, 0, polled_zero _, by decide⟩
    rw [interval_newThread]
    exact hopts
  constructor
  · obtain ⟨polls, behind, hrun, hbehind⟩ := timerRun_sound hstart hevents
    exact ⟨polls, behind, hrun, hbehind.fits⟩
  · rintro before during polls thread rfl hrun hlast hquit hkeeps
    obtain ⟨polls', behind, hrun', hsound⟩ := timerRun_sound hstart fun opts hmem =>
      hevents opts (List.mem_append_left during hmem)
    obtain ⟨rfl, rfl⟩ := Prod.mk.inj (Option.some.inj (hrun.symm.trans hrun'))
    have hzero : thread.accumulatedMs = 0 := by
      rw [accumulatedMs_of_timerRun hrun hlast]
      exact ite_self 0
    have hpolls : 0 < pollsOf thread.interval := by
      have hpos : 0 < thread.interval := effectiveInterval_pos _
      unfold pollsOf
      omega
    have hconstant := @timerRun_constant thread 0 hzero hpolls hquit hsound.short during hkeeps
    simpa only [Nat.zero_add] using hconstant

/-- Two seconds, and one second behind the first poll. -/
theorem fires_two_seconds : Fires (newThread namedFiles ⟨2000, false, true, false, .print []⟩)
    [.poll, .update ⟨1000, false, true, false, .print []⟩, .poll] := by
  have hshort (intervalMs : ℤ) (hle : effectiveInterval intervalMs ≤ longestInterval) :
      ShortInterval ⟨intervalMs, false, true, false, .print []⟩ := hle
  refine fires_of_shortInterval namedFiles (hshort 2000 (by decide)) fun opts hmem => ?_
  have hopts : opts = ⟨1000, false, true, false, .print []⟩ := by simpa using hmem
  rw [hopts]
  exact hshort 1000 (by decide)

/-- A longer interval is not reached. -/
theorem timerRun_overflows {thread : TimerThread} {polls : ℕ} (hpolled : thread.Polled polls)
    (hquit : thread.context.quit = false) (hlong : longestInterval < thread.interval) (left : ℕ)
    (hleft : polls + left = pollsOf longestInterval) :
    timerRun thread (List.replicate (left + 1) .poll) = none := by
  induction left generalizing thread polls with
  | zero =>
      have hlarge : intMax < thread.accumulatedMs + timerPollMs := by
        rw [hpolled]
        unfold pollsOf longestInterval at hleft
        unfold intMax timerPollMs
        omega
      have hpoll : timerPoll thread = .overflows := by
        rw [timerPoll, if_neg (by simp [hquit])]
        exact if_pos hlarge
      rw [List.replicate_succ, timerRun, hpoll]
  | succ left ih =>
      have hpolls : polls < pollsOf longestInterval := by omega
      have hwaits : timerPollMs * (polls + 1 : ℕ) < thread.interval := by
        refine lt_of_le_of_lt ?_ hlong
        unfold pollsOf longestInterval at *
        unfold timerPollMs
        omega
      have hrun := @ih { thread with accumulatedMs := timerPollMs * (polls + 1 : ℕ) } (polls + 1)
        rfl hquit hlong (by omega)
      have hpoll := timerPoll_of_polled hpolled hquit hpolls
      rw [if_pos hwaits] at hpoll
      rw [List.replicate_succ, timerRun_poll hpoll, hrun, Option.map_none]

/-- With the interval `INT_MAX`, the poll behind 2147483600 ms overflows. -/
theorem not_fires_intMax : ¬ ∀ (files : TempFiles) (opts : TimerOptions)
    (events : List TimerThreadEvent), 1 ≤ opts.intervalMs ∧ opts.intervalMs ≤ intMax →
      (∀ opts, .update opts ∈ events → 1 ≤ opts.intervalMs ∧ opts.intervalMs ≤ intMax) →
        Fires (newThread files opts) events := by
  intro hall
  have hfires := hall namedFiles ⟨intMax, false, true, false, .print []⟩
    (List.replicate (pollsOf longestInterval + 1) .poll) (by decide) fun opts hmem => by
      cases List.eq_of_mem_replicate hmem
  obtain ⟨polls, thread, hrun, -⟩ := hfires.fits
  have hnone := @timerRun_overflows
    (newThread namedFiles ⟨intMax, false, true, false, .print []⟩) 0 (polled_zero _) rfl
    (by decide) (pollsOf longestInterval) (Nat.zero_add _)
  rw [hnone] at hrun
  cases hrun

end BasC
