/-
# Walking up the process tree

`dump` of `ppid` prints a process and, with `--all`, goes on with its parent until
`getppidof` returns 0. But `getppidof` returns -1 for a process whose file cannot be
opened, and there is no process -1, so a walk that loses its way never comes back.
-/

import BasC.Lib.Loop
import BasC.Proc.Pid
import Mathlib.Data.Set.Finite.Basic
import Mathlib.Logic.Relation

namespace BasC

open Lib

/-- A line that `dump` prints: the process, and its command line if that can be read. -/
structure DumpLine where
  pid : ℤ
  cmdline : Option (List UInt8)
  deriving DecidableEq

/-- The path `/proc/%d/cmdline`. -/
def cmdlinePath (pid : ℤ) : CString := cstr "/proc/" ++ decimal pid ++ cstr "/cmdline"

/-- One call of `dump`, by the texts that `getppidof` reads and by the bytes of the command
lines, which have NULs in them. It returns `some ()`, and calls itself with the parent; `none`
is an undefined operation. -/
def dump (fopen : CString → Option CString) (bytes : CString → Option (List UInt8))
    (optAll : Bool) (pid : ℤ) :
    List DumpLine × (ℤ ⊕ Option Unit) :=
  ([⟨pid, bytes (cmdlinePath pid)⟩],
    if optAll then
      match getppidof fopen pid with
      | none => .inr none
      | some ppid => if ppid = 0 then .inr (some ()) else .inl ppid
    else .inr (some ()))

/-- A snapshot of `/proc`: some processes can be read, and the parents have no cycle. -/
structure ProcSnapshot where
  fopen : CString → Option CString
  bytes : CString → Option (List UInt8)
  process : ℤ → Option StatLine
  fopen_stat : ∀ pid, fopen (statPath pid) = (process pid).map StatLine.text
  process_pid : ∀ pid line, process pid = some line → line.pid = pid ∧ 0 < pid
  finite : {pid | (process pid).isSome}.Finite
  acyclic : ∀ pid, ¬ Relation.TransGen
    (fun child parent => ∃ line, process child = some line ∧ line.ppid = parent) pid pid

namespace ProcSnapshot

variable (snapshot : ProcSnapshot)

/-- The second process is the parent of the first. -/
def IsParent (child parent : ℤ) : Prop :=
  ∃ line, snapshot.process child = some line ∧ line.ppid = parent

/-- The processes from one to the root of the tree, or to one that cannot be read. -/
inductive Lineage : ℤ → List ℤ → Prop
  | root {pid : ℤ} {line : StatLine} :
      snapshot.process pid = some line → line.ppid = 0 → Lineage pid [pid]
  | lost {pid : ℤ} : snapshot.process pid = none → Lineage pid [pid]
  | up {pid : ℤ} {line : StatLine} {ancestors : List ℤ} :
      snapshot.process pid = some line → line.ppid ≠ 0 → Lineage line.ppid ancestors →
        Lineage pid (pid :: ancestors)

/-- `dump` with `--all` returns, and has printed the process and its ancestors, each once. -/
def DumpsLineage (start : ℤ) : Prop :=
  ∃ lines, Ends (dump snapshot.fopen snapshot.bytes true) start lines (some ()) ∧
    snapshot.Lineage start (lines.map DumpLine.pid) ∧ (lines.map DumpLine.pid).Nodup

/-- Every process from this one to the root can be read, and its name does not disturb the
scan. -/
inductive ReachesRoot : ℤ → Prop
  | root {pid : ℤ} {line : StatLine} :
      snapshot.process pid = some line → CommScans line.comm line.ppid → line.ppid = 0 →
        ReachesRoot pid
  | up {pid : ℤ} {line : StatLine} :
      snapshot.process pid = some line → CommScans line.comm line.ppid → line.ppid ≠ 0 →
        ReachesRoot line.ppid → ReachesRoot pid

variable {snapshot}

theorem Lineage.exists_cons {start : ℤ} {pids : List ℤ} (hlineage : snapshot.Lineage start pids) :
    ∃ ancestors, pids = start :: ancestors := by
  cases hlineage with
  | root hprocess hroot => exact ⟨[], rfl⟩
  | lost hnone => exact ⟨[], rfl⟩
  | up hprocess hroot hup => exact ⟨_, rfl⟩

/-- Everyone in a lineage is the process itself or an ancestor. -/
theorem Lineage.mem {start pid : ℤ} {pids : List ℤ} (hlineage : snapshot.Lineage start pids)
    (hmem : pid ∈ pids) : Relation.ReflTransGen snapshot.IsParent start pid := by
  induction hlineage with
  | root hprocess hroot =>
      rw [List.mem_singleton.mp hmem]
  | lost hnone =>
      rw [List.mem_singleton.mp hmem]
  | @up child line ancestors hprocess hroot hup ih =>
      rcases List.mem_cons.mp hmem with rfl | hmem
      · exact Relation.ReflTransGen.refl
      · exact Relation.ReflTransGen.head ⟨line, hprocess, rfl⟩ (ih hmem)

/-- Nobody occurs twice in a lineage. -/
theorem Lineage.nodup {start : ℤ} {pids : List ℤ} (hlineage : snapshot.Lineage start pids) :
    pids.Nodup := by
  induction hlineage with
  | root hprocess hroot => exact List.nodup_singleton _
  | lost hnone => exact List.nodup_singleton _
  | @up child line ancestors hprocess hroot hup ih =>
      rw [List.nodup_cons]
      refine ⟨fun hmem => snapshot.acyclic child ?_, ih⟩
      exact Relation.TransGen.head' ⟨line, hprocess, rfl⟩ (hup.mem hmem)

/-- Every process has a lineage, since the parents are finitely many and have no cycle. -/
theorem exists_lineage (start : ℤ) : ∃ pids, snapshot.Lineage start pids := by
  let Readable := {pid // pid ∈ {pid | (snapshot.process pid).isSome}}
  have hfinite : Finite Readable := snapshot.finite
  let isAncestor : Readable → Readable → Prop := fun older younger =>
    Relation.TransGen snapshot.IsParent younger.1 older.1
  have htrans : IsTrans Readable isAncestor := ⟨fun _ _ _ hab hbc => hbc.trans hab⟩
  have hirrefl : Std.Irrefl isAncestor := ⟨fun pid => snapshot.acyclic pid.1⟩
  have hwell : WellFounded isAncestor := Finite.wellFounded_of_trans_of_irrefl isAncestor
  have hreadable : ∀ pid : Readable, ∃ pids, snapshot.Lineage pid.1 pids := by
    intro pid
    induction pid using hwell.induction with
    | _ pid ih =>
        obtain ⟨line, hline⟩ := Option.isSome_iff_exists.mp pid.2
        by_cases hzero : line.ppid = 0
        · exact ⟨_, .root hline hzero⟩
        · have hup : ∃ pids, snapshot.Lineage line.ppid pids := by
            cases hparent : snapshot.process line.ppid with
            | none => exact ⟨_, .lost hparent⟩
            | some older =>
                have hsome : (snapshot.process line.ppid).isSome := by rw [hparent]; rfl
                exact ih ⟨line.ppid, hsome⟩ (Relation.TransGen.single ⟨line, hline, rfl⟩)
          obtain ⟨ancestors, hancestors⟩ := hup
          exact ⟨_, .up hline hzero hancestors⟩
  cases hprocess : snapshot.process start with
  | none => exact ⟨_, .lost hprocess⟩
  | some line =>
      have hsome : (snapshot.process start).isSome := by rw [hprocess]; rfl
      exact hreadable ⟨start, hsome⟩

theorem getppidof_of_process {pid : ℤ} {line : StatLine}
    (hprocess : snapshot.process pid = some line) :
    getppidof snapshot.fopen pid = scannedParent line.comm line.ppid := by
  obtain ⟨rfl, -⟩ := snapshot.process_pid pid line hprocess
  apply getppidof_of_line
  rw [snapshot.fopen_stat, hprocess]
  rfl

/-- A process that cannot be read has the parent -1. -/
theorem getppidof_of_none {pid : ℤ} (hnone : snapshot.process pid = none) :
    getppidof snapshot.fopen pid = some (-1) := by
  rw [getppidof, snapshot.fopen_stat, hnone]
  rfl

theorem process_minus_one : snapshot.process (-1) = none := by
  cases hprocess : snapshot.process (-1) with
  | none => rfl
  | some line =>
      have hpos := (snapshot.process_pid (-1) line hprocess).2
      exact absurd hpos (by decide)

section Dump

variable {fopen : CString → Option CString} {bytes : CString → Option (List UInt8)}
  {pid ppid : ℤ}

theorem dump_of_none (hundefined : getppidof fopen pid = none) :
    dump fopen bytes true pid = ([⟨pid, bytes (cmdlinePath pid)⟩], .inr none) := by
  rw [dump, if_pos rfl, hundefined]

theorem dump_of_zero (hzero : getppidof fopen pid = some 0) :
    dump fopen bytes true pid = ([⟨pid, bytes (cmdlinePath pid)⟩], .inr (some ())) := by
  rw [dump, if_pos rfl, hzero]
  rfl

theorem dump_of_parent (hppid : getppidof fopen pid = some ppid) (hne : ppid ≠ 0) :
    dump fopen bytes true pid = ([⟨pid, bytes (cmdlinePath pid)⟩], .inl ppid) := by
  rw [dump, if_pos rfl, hppid]
  simp only [if_neg hne]

/-- **One round of the walk.** -/
theorem ends_dump_iff {lines : List DumpLine} :
    Ends (dump fopen bytes true) pid lines (some ()) ↔
      ∃ ppid rest, getppidof fopen pid = some ppid ∧
        lines = ⟨pid, bytes (cmdlinePath pid)⟩ :: rest ∧
        ((ppid = 0 ∧ rest = []) ∨
          (ppid ≠ 0 ∧ Ends (dump fopen bytes true) ppid rest (some ()))) := by
  cases hppid : getppidof fopen pid with
  | none =>
      rw [ends_iff_of_last (dump_of_none hppid)]
      constructor
      · rintro ⟨-, hvalue⟩
        cases hvalue
      · rintro ⟨ppid, rest, hsome, -⟩
        cases hsome
  | some ppid =>
      by_cases hzero : ppid = 0
      · subst hzero
        rw [ends_iff_of_last (dump_of_zero hppid)]
        constructor
        · rintro ⟨rfl, -⟩
          exact ⟨0, [], rfl, rfl, .inl ⟨rfl, rfl⟩⟩
        · rintro ⟨ppid', rest, hsome, rfl, ⟨-, rfl⟩ | ⟨hne, -⟩⟩
          · exact ⟨rfl, rfl⟩
          · exact absurd (Option.some.inj hsome).symm hne
      · rw [ends_iff_of_next (dump_of_parent hppid hzero)]
        constructor
        · rintro ⟨rest, rfl, hrest⟩
          exact ⟨ppid, rest, rfl, rfl, .inr ⟨hzero, hrest⟩⟩
        · rintro ⟨ppid', rest, hsome, rfl, ⟨heq, -⟩ | ⟨-, hrest⟩⟩
          · exact absurd ((Option.some.inj hsome).trans heq) hzero
          · obtain rfl := Option.some.inj hsome
            exact ⟨rest, rfl, hrest⟩

end Dump

/-- **A walk that loses its way never ends.** -/
theorem not_ends_of_lost {pid : ℤ} (hnone : snapshot.process pid = none) (lines : List DumpLine) :
    ¬ Ends (dump snapshot.fopen snapshot.bytes true) pid lines (some ()) := by
  have hround : ∀ pid, snapshot.process pid = none → ∃ events next,
      dump snapshot.fopen snapshot.bytes true pid = (events, .inl next) ∧
        snapshot.process next = none :=
    fun pid hnone =>
      ⟨_, -1, dump_of_parent (getppidof_of_none hnone) (by decide), process_minus_one⟩
  exact not_ends_of_invariant hround hnone

/-- The parent of a process whose name does not disturb the scan. -/
theorem getppidof_eq_iff {pid : ℤ} {line : StatLine} (hprocess : snapshot.process pid = some line) :
    getppidof snapshot.fopen pid = some line.ppid ↔ CommScans line.comm line.ppid := by
  rw [getppidof_of_process hprocess]
  exact scannedParent_eq_some_iff line.ppid_fits

theorem ReachesRoot.dumpsLineage {start : ℤ} (hroot : snapshot.ReachesRoot start) :
    snapshot.DumpsLineage start := by
  have hdumps : ∃ lines, Ends (dump snapshot.fopen snapshot.bytes true) start lines (some ()) ∧
      snapshot.Lineage start (lines.map DumpLine.pid) := by
    induction hroot with
    | @root pid line hprocess hscans hzero =>
        have hppid := (getppidof_eq_iff hprocess).mpr hscans
        exact ⟨_, ends_dump_iff.mpr ⟨line.ppid, [], hppid, rfl, .inl ⟨hzero, rfl⟩⟩,
          .root hprocess hzero⟩
    | @up pid line hprocess hscans hne hup ih =>
        obtain ⟨rest, hrest, hlineage⟩ := ih
        have hppid := (getppidof_eq_iff hprocess).mpr hscans
        exact ⟨_, ends_dump_iff.mpr ⟨line.ppid, rest, hppid, rfl, .inr ⟨hne, hrest⟩⟩,
          .up hprocess hne hlineage⟩
  obtain ⟨lines, hends, hlineage⟩ := hdumps
  exact ⟨lines, hends, hlineage, hlineage.nodup⟩

theorem DumpsLineage.reachesRoot {start : ℤ} (hdumps : snapshot.DumpsLineage start) :
    snapshot.ReachesRoot start := by
  obtain ⟨lines, hends, hlineage, -⟩ := hdumps
  generalize hpids : lines.map DumpLine.pid = pids at hlineage
  induction hlineage generalizing lines with
  | @root pid line hprocess hzero =>
      obtain ⟨ppid, rest, hppid, rfl, ⟨rfl, -⟩ | ⟨-, hrest⟩⟩ := ends_dump_iff.mp hends
      · exact .root hprocess ((getppidof_eq_iff hprocess).mp (hppid.trans (by rw [hzero]))) hzero
      · obtain ⟨_, _, -, rfl, -⟩ := ends_dump_iff.mp hrest
        cases hpids
  | lost hnone => exact absurd hends (not_ends_of_lost hnone lines)
  | @up pid line ancestors hprocess hne hup ih =>
      obtain ⟨ppid, rest, hppid, rfl, hrest⟩ := ends_dump_iff.mp hends
      have htail : rest.map DumpLine.pid = ancestors := (List.cons.inj hpids).2
      obtain ⟨older, rfl⟩ := hup.exists_cons
      obtain ⟨-, rfl⟩ | ⟨-, hrest⟩ := hrest
      · cases htail
      · have hfirst := ends_dump_iff.mp hrest
        obtain ⟨_, more, -, rfl, -⟩ := hfirst
        obtain rfl : ppid = line.ppid := (List.cons.inj htail).1
        exact .up hprocess ((getppidof_eq_iff hprocess).mp hppid) hne (ih _ hrest htail)

/-- **When the walk up the tree ends.** -/
theorem dumpsLineage_iff (start : ℤ) :
    snapshot.DumpsLineage start ↔ snapshot.ReachesRoot start :=
  ⟨DumpsLineage.reachesRoot, ReachesRoot.dumpsLineage⟩

end ProcSnapshot

theorem statPath_injective : Function.Injective statPath := by
  intro pid pid' hpath
  unfold statPath at hpath
  rw [List.append_assoc, List.append_assoc, List.append_cancel_left_eq] at hpath
  have hends : EndsNumber (cstr "/stat") := by decide +kernel
  have hscan := scanInt_decimal pid hends
  rw [hpath, scanInt_decimal pid' hends] at hscan
  exact (congrArg Prod.fst (Option.some.inj hscan)).symm

/-- The line of `login`. -/
def loginLine : StatLine where
  pid := 10
  comm := cstr "login"
  state := ⟨68, by decide⟩
  ppid := 0
  rest := cstr " 10 10"
  pid_fits := by decide
  comm_line := by decide +kernel
  state_letter := by decide
  ppid_fits := by decide
  rest_ends := by decide +kernel

/-- The line of a shell that `login` has started. -/
def shellLine : StatLine where
  pid := 20
  comm := cstr "sh"
  state := ⟨68, by decide⟩
  ppid := 10
  rest := cstr " 20 20"
  pid_fits := by decide
  comm_line := by decide +kernel
  state_letter := by decide
  ppid_fits := by decide
  rest_ends := by decide +kernel

/-- The processes of a snapshot with these two. -/
def shellProcess (pid : ℤ) : Option StatLine :=
  if pid = 20 then some shellLine else if pid = 10 then some loginLine else none

theorem shellProcess_cases {pid : ℤ} {line : StatLine} (hprocess : shellProcess pid = some line) :
    (pid = 20 ∧ line = shellLine) ∨ (pid = 10 ∧ line = loginLine) := by
  unfold shellProcess at hprocess
  split_ifs at hprocess with hshell hlogin
  · exact .inl ⟨hshell, (Option.some.inj hprocess).symm⟩
  · exact .inr ⟨hlogin, (Option.some.inj hprocess).symm⟩

/-- A snapshot with these two. -/
def shellSnapshot : ProcSnapshot where
  fopen path :=
    if path = statPath 20 then some shellLine.text
    else if path = statPath 10 then some loginLine.text
    else none
  bytes path := if path = cmdlinePath 20 then some [115, 104, 0] else none
  process := shellProcess
  fopen_stat pid := by
    simp only [statPath_injective.eq_iff, shellProcess]
    split_ifs <;> rfl
  process_pid pid line hprocess := by
    obtain ⟨rfl, rfl⟩ | ⟨rfl, rfl⟩ := shellProcess_cases hprocess
    · exact ⟨rfl, by decide⟩
    · exact ⟨rfl, by decide⟩
  finite := by
    refine (Set.toFinite {20, 10}).subset fun pid hsome => ?_
    obtain ⟨line, hprocess⟩ := Option.isSome_iff_exists.mp hsome
    exact (shellProcess_cases hprocess).imp And.left And.left
  acyclic pid hcycle := by
    -- A parent has a smaller number.
    have hparent {child parent : ℤ} :
        (∃ line, shellProcess child = some line ∧ line.ppid = parent) → parent < child := by
      rintro ⟨line, hprocess, rfl⟩
      obtain ⟨rfl, rfl⟩ | ⟨rfl, rfl⟩ := shellProcess_cases hprocess
      · decide
      · decide
    have hancestor {first last : ℤ} (hpath : Relation.TransGen
        (fun child parent => ∃ line, shellProcess child = some line ∧ line.ppid = parent)
        first last) : last < first := by
      induction hpath with
      | single hstep => exact hparent hstep
      | tail _ hstep ih => exact (hparent hstep).trans ih
    exact lt_irrefl pid (hancestor hcycle)

/-- The walk from the shell comes to `login`, and ends there. -/
example : shellSnapshot.DumpsLineage 20 := by
  have hlogin : CommScans (cstr "login") 0 := .inl ⟨by decide +kernel, by decide +kernel⟩
  have hshell : CommScans (cstr "sh") 10 := .inl ⟨by decide +kernel, by decide +kernel⟩
  exact ProcSnapshot.ReachesRoot.dumpsLineage
    (@ProcSnapshot.ReachesRoot.up shellSnapshot 20 shellLine rfl hshell (by decide)
      (@ProcSnapshot.ReachesRoot.root shellSnapshot 10 loginLine rfl hlogin rfl))

/-- A snapshot in which nothing can be read. -/
def emptySnapshot : ProcSnapshot where
  fopen := fun _ => none
  bytes := fun _ => none
  process := fun _ => none
  fopen_stat := fun _ => rfl
  process_pid := fun _ _ hprocess => by cases hprocess
  finite := by simp
  acyclic := by
    intro pid hcycle
    obtain ⟨_, ⟨line, hprocess, -⟩, -⟩ := Relation.TransGen.head'_iff.mp hcycle
    cases hprocess

/-- The walk from a process whose file cannot be opened. -/
theorem not_dumpsLineage_lost :
    ¬ ∀ (snapshot : ProcSnapshot) (start : ℤ), snapshot.DumpsLineage start := by
  intro hall
  obtain ⟨lines, hends, -, -⟩ := hall emptySnapshot 1
  exact @ProcSnapshot.not_ends_of_lost emptySnapshot 1 rfl lines hends

end BasC
