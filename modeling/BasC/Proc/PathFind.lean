/-
# Searching `PATH`

`path_find` keeps a copy of `PATH` with every `:` made a NUL and one more NUL behind the
end, and walks over it component by component until it meets a NUL. An empty component is
such a NUL too, so the walk stops there, and the components behind it are never searched.
-/

import BasC.Base.Memory
import BasC.Base.Numerals
import BasC.Proc.Pid

namespace BasC

open CChar

/-- A component of `PATH` ends at a `:`. -/
def isColon (c : CChar) : Bool := c = colon

/-- The buffer `pathv`: every `:` has become a NUL, and one more NUL stands behind the end. -/
def pathBuffer (path : CString) : List UInt8 :=
  path.map (fun c => if isColon c then 0 else c.1) ++ [0, 0]

/-- `stat` answers with the mode of the file, and one of its execute bits is set. -/
def isExecutable (mode : Option ℕ) : Bool := mode.any fun mode => mode &&& 0o111 != 0

/-- The path that is tried in a directory. -/
def joinPath (dir name : CString) : CString := dir ++ slash :: name

/-- The loop of `path_find`, from a place in the buffer. A read behind the buffer and a path
that `join` cannot hold are undefined. -/
def findFromPlace (stat : CString → Option ℕ) (name : CString) (buffer : List UInt8) (p : ℕ) :
    Option (Option CString) :=
  match hbyte : buffer[p]? with
  | none => none
  | some byte =>
      if byte = 0 then some none
      else
        let dir := textOf (buffer.drop p)
        if (joinPath dir name).length < pathMax then
          if isExecutable (stat (joinPath dir name)) then some (some (joinPath dir name))
          else findFromPlace stat name buffer (p + (dir.length + 1))
        else none
termination_by buffer.length - p
decreasing_by
  have hinside := (List.getElem?_eq_some_iff.mp hbyte).1
  omega

/-- The first lines of `path_find`, which fill `pathv` when it is `NULL`. The length of `PATH`
is an `int` here. -/
def fillPathv (pathenv : Option CString) (pathv : Option (List UInt8)) : Option (List UInt8) :=
  match pathv with
  | some buffer => some buffer
  | none =>
      if ((pathenv.getD []).length : ℤ) + 2 ≤ intMax then some (pathBuffer (pathenv.getD []))
      else none

/-- `path_find`: what it returns, and `pathv` behind the call. Allocations succeed. -/
def pathFind (pathenv : Option CString) (stat : CString → Option ℕ) (name : CString)
    (pathv : Option (List UInt8)) : Option (Option CString × Option (List UInt8)) :=
  (fillPathv pathenv pathv).bind fun buffer =>
    (findFromPlace stat name buffer 0).map fun found => (found, some buffer)

/-- The values that `pathv` takes in a process with this `PATH`. -/
inductive PathvReached (pathenv : Option CString) : Option (List UInt8) → Prop
  | start : PathvReached pathenv none
  | call {stat : CString → Option ℕ} {name : CString} {pathv pathv' : Option (List UInt8)}
      {found : Option CString} :
      PathvReached pathenv pathv → pathFind pathenv stat name pathv = some (found, pathv') →
        PathvReached pathenv pathv'

/-- The components of `PATH`. -/
def pathComponents (pathenv : Option CString) : List CString :=
  (pathenv.getD []).splitOnP isColon

/-- A component that is a directory. -/
def isNamed (dir : CString) : Bool := !dir.isEmpty

/-- The file is found in the directory. -/
def foundIn (stat : CString → Option ℕ) (name dir : CString) : Bool :=
  isExecutable (stat (joinPath dir name))

/-- The whole `PATH` searched: the first of all its directories that has the file. -/
def searchPath (pathenv : Option CString) (stat : CString → Option ℕ) (name : CString) :
    Option CString :=
  (((pathComponents pathenv).filter isNamed).find? (foundIn stat name)).map (joinPath · name)

/-- The components as they lie in the buffer. -/
def componentBytes (dirs : List CString) : List UInt8 :=
  (dirs.flatMap fun dir => bytesOf dir ++ [0]) ++ [0]

theorem pathBuffer_eq (path : CString) :
    pathBuffer path = componentBytes (path.splitOnP isColon) := by
  unfold pathBuffer componentBytes
  induction path with
  | nil => rfl
  | cons c path ih =>
      obtain ⟨dir, dirs, hdirs⟩ :=
        List.exists_cons_of_ne_nil (List.splitOnP_ne_nil isColon path)
      rw [List.splitOnP_cons_eq_if_modifyHead]
      rw [hdirs] at ih ⊢
      cases hcolon : isColon c with
      | true =>
          simp only [List.map_cons, hcolon, if_true, List.cons_append, ih]
          rfl
      | false =>
          simp only [List.map_cons, hcolon, Bool.false_eq_true, if_false, List.cons_append, ih]
          rfl

/-- The directories in front of the first empty component, searched. -/
def searchFront (stat : CString → Option ℕ) (name : CString) (dirs : List CString) :
    Option CString :=
  ((dirs.takeWhile isNamed).find? (foundIn stat name)).map (joinPath · name)

/-- **The walk over the buffer.** It searches the directories in front of the first empty
component. -/
theorem findFromPlace_eq {stat : CString → Option ℕ} {name : CString} {buffer : List UInt8}
    {dirs : List CString} {p : ℕ} (hplace : buffer.drop p = componentBytes dirs)
    (hfits : ∀ dir ∈ dirs, dir ≠ [] → (joinPath dir name).length < pathMax) :
    findFromPlace stat name buffer p = some (searchFront stat name dirs) := by
  induction dirs generalizing p with
  | nil =>
      have hbyte : buffer[p]? = some 0 := by
        rw [← List.head?_drop, hplace]
        rfl
      rw [findFromPlace]
      split
      · rename_i hnone
        rw [hbyte] at hnone
        cases hnone
      · rename_i byte hsome
        obtain rfl := Option.some.inj (hbyte.symm.trans hsome)
        rfl
  | cons dir dirs ih =>
      have hsplit : buffer.drop p = bytesOf dir ++ 0 :: componentBytes dirs := by
        rw [hplace]
        simp [componentBytes]
      have hbyte : buffer[p]? = (bytesOf dir ++ 0 :: componentBytes dirs).head? := by
        rw [← List.head?_drop, hsplit]
      have htext : textOf (buffer.drop p) = dir := by rw [hsplit, textOf_bytesOf]
      have hnext : buffer.drop (p + (dir.length + 1)) = componentBytes dirs := by
        have hlength : (bytesOf dir ++ [0]).length = dir.length + 1 := by simp [bytesOf]
        rw [← List.drop_drop, hsplit, List.append_cons, ← hlength, List.drop_left]
      rw [findFromPlace]
      split
      · rename_i hnone
        rw [hbyte] at hnone
        cases dir <;> cases hnone
      · rename_i byte hsome
        rw [hbyte] at hsome
        cases dir with
        | nil =>
            obtain rfl := Option.some.inj hsome
            rfl
        | cons c letters =>
            obtain rfl := Option.some.inj hsome
            have hfit := hfits (c :: letters) List.mem_cons_self (List.cons_ne_nil _ _)
            have hrest := ih hnext fun dir hdir => hfits dir (List.mem_cons_of_mem _ hdir)
            rw [if_neg c.2]
            simp only [htext]
            rw [if_pos hfit, hrest, searchFront, searchFront, List.takeWhile_cons_of_pos rfl,
              List.find?_cons, foundIn]
            cases isExecutable (stat (joinPath (c :: letters) name)) <;> rfl

/-- An element of the front, or of none. -/
theorem find?_takeWhile_eq_iff {α : Type} (p q : α → Bool) (l : List α) :
    (l.takeWhile q).find? p = (l.filter q).find? p ↔
      ∀ a ∈ l, q a = true → p a = true → ∃ b ∈ l.takeWhile q, p b = true := by
  have hsplit : l.filter q = l.takeWhile q ++ (l.dropWhile q).filter q := by
    have hfront : (l.takeWhile q).filter q = l.takeWhile q :=
      List.filter_eq_self.mpr fun a ha => List.mem_takeWhile_imp ha
    have happend := List.filter_append (p := q) (l.takeWhile q) (l.dropWhile q)
    rwa [List.takeWhile_append_dropWhile, hfront] at happend
  cases hfront : (l.takeWhile q).find? p with
  | some b =>
      have hfound : (l.filter q).find? p = some b := by
        rw [hsplit, List.find?_append, hfront, Option.some_or]
      rw [hfound]
      exact iff_of_true rfl fun _ _ _ _ =>
        ⟨b, List.mem_of_find?_eq_some hfront, List.find?_some hfront⟩
  | none =>
      have hnobody : ¬ ∃ b ∈ l.takeWhile q, p b = true := by
        rintro ⟨b, hb, hp⟩
        exact List.find?_eq_none.mp hfront b hb hp
      rw [eq_comm, List.find?_eq_none]
      constructor
      · intro hnone a ha hq hp
        exact absurd hp (hnone a (List.mem_filter.mpr ⟨ha, hq⟩))
      · intro hall a ha hp
        obtain ⟨hmem, hq⟩ := List.mem_filter.mp ha
        exact hnobody (hall a hmem hq hp)

theorem joinPath_injective (name dir dir' : CString)
    (hjoin : joinPath dir name = joinPath dir' name) : dir = dir' :=
  List.append_cancel_right hjoin

/-- The walk finds what is in front of the first empty component. -/
theorem searchFront_eq_searchPath_iff (pathenv : Option CString) (stat : CString → Option ℕ)
    (name : CString) :
    searchFront stat name (pathComponents pathenv) = searchPath pathenv stat name ↔
      ∀ dir ∈ pathComponents pathenv, isNamed dir = true → foundIn stat name dir = true →
        ∃ front ∈ (pathComponents pathenv).takeWhile isNamed, foundIn stat name front = true := by
  rw [searchFront, searchPath, Option.map_inj_right (joinPath_injective name),
    find?_takeWhile_eq_iff]

/-- `pathv` is `NULL` until the first call, and the buffer of `PATH` from then on. -/
theorem PathvReached.fillPathv_eq {pathenv : Option CString} {pathv : Option (List UInt8)}
    (hreached : PathvReached pathenv pathv) :
    fillPathv pathenv pathv =
      if ((pathenv.getD []).length : ℤ) + 2 ≤ intMax then some (pathBuffer (pathenv.getD []))
      else none := by
  have hstates : pathv = none ∨ (pathv = some (pathBuffer (pathenv.getD [])) ∧
      ((pathenv.getD []).length : ℤ) + 2 ≤ intMax) := by
    induction hreached with
    | start => exact .inl rfl
    | @call stat name pathv pathv' found hreached hcall ih =>
        obtain ⟨buffer, hbuffer, hfound⟩ := Option.bind_eq_some_iff.mp hcall
        obtain ⟨_, _, hout⟩ := Option.map_eq_some_iff.mp hfound
        obtain ⟨-, rfl⟩ := Prod.mk.inj hout
        rcases ih with rfl | ⟨rfl, hlength⟩
        · rw [fillPathv] at hbuffer
          split at hbuffer
          · rename_i hlength
            exact .inr ⟨hbuffer.symm, hlength⟩
          · cases hbuffer
        · exact .inr ⟨hbuffer.symm, hlength⟩
  rcases hstates with rfl | ⟨rfl, hlength⟩
  · rfl
  · rw [if_pos hlength]
    rfl

/-- **When the whole of `PATH` is searched.** -/
theorem pathFind_eq_searchPath_iff {pathenv : Option CString} {pathv : Option (List UInt8)}
    (hreached : PathvReached pathenv pathv) (stat : CString → Option ℕ) {name : CString}
    (hfits : ∀ dir ∈ pathComponents pathenv, dir ≠ [] →
      (joinPath dir name).length < pathMax) :
    (pathFind pathenv stat name pathv).map Prod.fst = some (searchPath pathenv stat name) ↔
      ((pathenv.getD []).length : ℤ) + 2 ≤ intMax ∧
        ∀ dir ∈ pathComponents pathenv, isNamed dir = true → foundIn stat name dir = true →
          ∃ front ∈ (pathComponents pathenv).takeWhile isNamed,
            foundIn stat name front = true := by
  have hplace : (pathBuffer (pathenv.getD [])).drop 0 = componentBytes (pathComponents pathenv) :=
    pathBuffer_eq _
  rw [← searchFront_eq_searchPath_iff, pathFind, hreached.fillPathv_eq]
  split
  · rename_i hlength
    rw [Option.bind_some, findFromPlace_eq hplace hfits]
    rw [Option.map_some, Option.map_some, Option.some.injEq]
    exact (and_iff_right hlength).symm
  · rename_i hlength
    exact iff_of_false (fun hnone => by cases hnone) fun hboth => hlength hboth.1

/-- A file system with the one executable `/bin/ls`. -/
def onlyBinLs (path : CString) : Option ℕ := if path = cstr "/bin/ls" then some 0o755 else none

/-- `PATH=/bin:/usr/bin`. -/
theorem pathFind_ls :
    (pathFind (some (cstr "/bin:/usr/bin")) onlyBinLs (cstr "ls") none).map Prod.fst =
        some (searchPath (some (cstr "/bin:/usr/bin")) onlyBinLs (cstr "ls")) ↔
      ((cstr "/bin:/usr/bin").length : ℤ) + 2 ≤ intMax ∧
        ∀ dir ∈ pathComponents (some (cstr "/bin:/usr/bin")), isNamed dir = true →
          foundIn onlyBinLs (cstr "ls") dir = true →
          ∃ front ∈ (pathComponents (some (cstr "/bin:/usr/bin"))).takeWhile isNamed,
            foundIn onlyBinLs (cstr "ls") front = true :=
  pathFind_eq_searchPath_iff .start onlyBinLs (by decide +kernel)

/-- `PATH=:/bin`: the empty component in front hides the directory behind it. -/
theorem not_pathFind_behind_empty :
    ¬ ∀ (pathenv : Option CString) (pathv : Option (List UInt8)),
      PathvReached pathenv pathv → ∀ (stat : CString → Option ℕ) (name : CString),
        (∀ dir ∈ pathComponents pathenv, dir ≠ [] → (joinPath dir name).length < pathMax) →
        (pathFind pathenv stat name pathv).map Prod.fst =
          some (searchPath pathenv stat name) := by
  intro hall
  have hsame := hall (some (cstr ":/bin")) none .start onlyBinLs (cstr "ls") (by decide +kernel)
  exact absurd hsame (by decide +kernel)

end BasC
