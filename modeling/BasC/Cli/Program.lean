/-
# Processing a list of files

`process_files` opens each path of a list and hands it to a handler. Its loop tests and opens
the variable `path`, which is the first path of the list, and moves the variable `paths`,
which it does not read again.
-/

import BasC.Base.CString
import BasC.Lib.Loop

namespace BasC

open Lib

variable {σ : Type}

/-- What `process_files` does with a path: open it, and hand it to the handler. The flag says
whether that succeeded. -/
inductive FileEvent
  | opened (path : CString) (ok : Bool)
  | handled (path : CString) (ok : Bool)
  deriving DecidableEq

def FileEvent.ok : FileEvent → Bool
  | .opened _ ok => ok
  | .handled _ ok => ok

/-- What is around `process_files`: `fopen`, the handler and `opt_error_continue`. -/
structure FileEnv (σ : Type) where
  fopen : CString → σ → Bool × σ
  handler : CString → σ → Bool × σ
  optErrorContinue : Bool

/-- The variables of the loop. -/
structure FileLoop (σ : Type) where
  path : CString
  paths : List CString
  err : Bool
  world : σ

/-- The body of the loop for one path. -/
def attemptFile (env : FileEnv σ) (path : CString) (world : σ) : List FileEvent × σ :=
  let (opened, world) := env.fopen path world
  if opened then
    let (ok, world) := env.handler path world
    ([.opened path true, .handled path ok], world)
  else ([.opened path false], world)

/-- An attempt failed. -/
def hasFailed (events : List FileEvent) : Bool := events.any fun event => !event.ok

/-- One round of `for (path = *paths; *path; paths++)`, with its test in front. -/
def fileRound (env : FileEnv σ) (s : FileLoop σ) :
    List FileEvent × (FileLoop σ ⊕ (Bool × σ)) :=
  if s.path = [] then ([], .inr (s.err, s.world))
  else
    let (events, world) := attemptFile env s.path s.world
    let err := s.err || hasFailed events
    (events,
      if err && !env.optErrorContinue then .inr (err, world)
      else .inl ⟨s.path, s.paths.tail, err, world⟩)

/-- The name that the handler gets with `stdin`. -/
def stdinName : CString := cstr "<stdin>"

/-- `process_files`, with at most `fuel` rounds: what it does, what it returns, and the world
behind it. -/
def processFiles (env : FileEnv σ) (paths : List CString) (world : σ) (fuel : ℕ) :
    Option (List FileEvent × (Bool × σ)) :=
  match paths with
  | [] =>
      let (ok, world) := env.handler stdinName world
      some ([.handled stdinName ok], (ok, world))
  | path :: _ => rounds (fileRound env) fuel ⟨path, paths, false, world⟩

/-- Attempt the paths in order, until one fails or, with `opt_error_continue`, all of them. -/
def attemptAll (env : FileEnv σ) : List CString → σ → List FileEvent × σ
  | [], world => ([], world)
  | path :: paths, world =>
      let (events, world) := attemptFile env path world
      if hasFailed events && !env.optErrorContinue then (events, world)
      else
        let (rest, world) := attemptAll env paths world
        (events ++ rest, world)

/-- `process_files` comes to its end after attempting each path once, in order, and returns
whether nothing failed, as it does for the empty list. -/
def ProcessesEach (env : FileEnv σ) (paths : List CString) (world : σ) : Prop :=
  ∃ fuel, processFiles env paths world fuel =
    match paths with
    | [] => some ([.handled stdinName (env.handler stdinName world).1], env.handler stdinName world)
    | _ :: _ =>
        some ((attemptAll env paths world).1,
          (!hasFailed (attemptAll env paths world).1, (attemptAll env paths world).2))

/-- An attempt opens the path. -/
theorem attemptFile_ne_nil (env : FileEnv σ) (path : CString) (world : σ) :
    (attemptFile env path world).1 ≠ [] := by
  unfold attemptFile
  simp only
  split <;> simp

theorem attemptAll_cons_ne_nil (env : FileEnv σ) (path : CString) (paths : List CString)
    (world : σ) :
    (attemptAll env (path :: paths) world).1 ≠ [] := by
  have hfirst := attemptFile_ne_nil env path world
  rw [attemptAll]
  simp only
  split
  · exact hfirst
  · exact fun hnil => hfirst (List.append_eq_nil_iff.mp hnil).1

/-- **The loop ends only with an error**, once it has begun: a round that goes on leaves the
path as it is, and without an error, or with `opt_error_continue`, a round goes on. -/
theorem err_of_rounds {env : FileEnv σ} {fuel : ℕ} {s : FileLoop σ} {events : List FileEvent}
    {err : Bool} {world : σ} (hpath : s.path ≠ [])
    (herr : s.err = true → env.optErrorContinue = true)
    (hends : rounds (fileRound env) fuel s = some (events, (err, world))) :
    err = true ∧ hasFailed events = true := by
  induction fuel generalizing s events with
  | zero => cases hends
  | succ fuel ih =>
      cases hattempt : attemptFile env s.path s.world with
      | mk first next =>
          by_cases hstop : (s.err || hasFailed first) && !env.optErrorContinue
          · have hround : fileRound env s = (first, .inr (s.err || hasFailed first, next)) := by
              simp only [fileRound, hpath, if_false, hattempt, hstop, if_true]
            simp only [rounds, hround] at hends
            obtain ⟨rfl, hvalue⟩ := Prod.mk.inj (Option.some.inj hends)
            obtain ⟨rfl, -⟩ := Prod.mk.inj hvalue
            obtain ⟨hfail, hcontinue⟩ := Bool.and_eq_true_iff.mp hstop
            have hfirst : hasFailed first = true := by
              rcases Bool.or_eq_true_iff.mp hfail with hbefore | hfirst
              · simp only [herr hbefore, Bool.not_true] at hcontinue
                cases hcontinue
              · exact hfirst
            exact ⟨hfail, hfirst⟩
          · have hround : fileRound env s =
                (first, .inl ⟨s.path, s.paths.tail, s.err || hasFailed first, next⟩) := by
              simp only [fileRound, hpath, if_false, hattempt, hstop]
              rfl
            simp only [rounds, hround] at hends
            obtain ⟨⟨rest, value⟩, hrest, hout⟩ := Option.map_eq_some_iff.mp hends
            obtain ⟨rfl, rfl⟩ := Prod.mk.inj hout
            have hgoes : (s.err || hasFailed first) = true → env.optErrorContinue = true := by
              intro hfail
              simpa only [hfail, Bool.true_and, Bool.not_eq_true', Bool.not_eq_false] using hstop
            obtain ⟨hvalue, hfailed⟩ := ih
              (s := ⟨s.path, s.paths.tail, s.err || hasFailed first, next⟩) hpath hgoes hrest
            refine ⟨hvalue, ?_⟩
            simp only [hasFailed, List.any_append, Bool.or_eq_true] at hfailed ⊢
            exact .inr hfailed

/-- **`process_files` does what is claimed of it only for the empty list.** The loop stays at
the first path: if that is empty it attempts nothing, and otherwise it ends with the first
failure or not at all, and returns true for it. -/
theorem processesEach_iff (env : FileEnv σ) (paths : List CString) (world : σ) :
    ProcessesEach env paths world ↔ paths = [] := by
  constructor
  · rintro ⟨fuel, hends⟩
    cases paths with
    | nil => rfl
    | cons path rest =>
        simp only [processFiles] at hends
        exfalso
        by_cases hpath : path = []
        · -- the test of the first round fails, and nothing is attempted
          subst hpath
          cases fuel with
          | zero => cases hends
          | succ fuel =>
              simp only [rounds, fileRound, if_true] at hends
              have hevents := (Prod.mk.inj (Option.some.inj hends)).1
              exact attemptAll_cons_ne_nil env [] rest world hevents.symm
        · obtain ⟨hvalue, hfailed⟩ :=
            err_of_rounds (s := ⟨path, path :: rest, false, world⟩) hpath
              (fun herr => absurd herr Bool.false_ne_true) hends
          rw [hfailed] at hvalue
          cases hvalue
  · rintro rfl
    exact ⟨0, rfl⟩

/-- Every file can be opened and every handler succeeds. -/
def faultless : FileEnv Unit where
  fopen _ world := (true, world)
  handler _ world := (true, world)
  optErrorContinue := false

/-- One path, `a`, is opened forever. -/
theorem not_processesEach_single : ¬ ProcessesEach faultless [cstr "a"] () := by
  rintro ⟨fuel, hends⟩
  refine @not_ends_of_invariant _ _ _ _ _ _ _ (fun s => s.path = cstr "a" ∧ s.err = false)
    ?_ ⟨rfl, rfl⟩ ⟨fuel, hends⟩
  rintro ⟨path, paths, err, world⟩ ⟨rfl, rfl⟩
  exact ⟨[.opened (cstr "a") true, .handled (cstr "a") true],
    ⟨cstr "a", paths.tail, false, world⟩, rfl, rfl, rfl⟩

end BasC
