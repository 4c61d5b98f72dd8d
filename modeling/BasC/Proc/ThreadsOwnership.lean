/-
# Who owns the threads

What the stack parsers do with their memory. Whatever the requests come to, the threads that are
found are the ones found with all memory, some of them left out and with fields left out, and no
frame goes to another thread: when there is no memory for a thread, its frames are left out too.
All that is held at the end of a parser are the blocks of its list, and `thread_info_list_free`
gives back each of them.
-/

import BasC.Lib.Transition
import BasC.Proc.ThreadsHeap
import Mathlib.Data.List.Forall2

namespace BasC

open CChar Lib

/-- A field is the same, or `NULL`. -/
def FieldPart (part whole : Option CString) : Prop := part = none ∨ part = whole

/-- A frame with some of its fields. -/
structure StackFrame.PartOf (part whole : StackFrame) : Prop where
  frameNumber : part.frameNumber = whole.frameNumber
  address : FieldPart part.address whole.address
  method : FieldPart part.method whole.method
  params : FieldPart part.params whole.params
  file : FieldPart part.file whole.file
  line : part.line = whole.line
  rawLine : part.rawLine = whole.rawLine

/-- The names of threads whose name could not be stored. -/
def placeholderNames : List CString := [[], cstr "current", cstr "?"]

/-- A thread with some of its frames, in their order, and perhaps without its name. -/
structure ThreadInfo.PartOf (part whole : ThreadInfo) : Prop where
  threadId : part.threadId = whole.threadId
  name : part.name = whole.name ∨ part.name ∈ placeholderNames
  lwp : part.lwp = whole.lwp
  frames : part.frames.SublistForall₂ StackFrame.PartOf whole.frames

/-- Some of the threads, in their order, each with some of its frames. -/
def ThreadsPartOf (part whole : List ThreadInfo) : Prop :=
  part.SublistForall₂ ThreadInfo.PartOf whole

section Parts

theorem FieldPart.refl (field : Option CString) : FieldPart field field := .inr rfl

theorem FieldPart.trans {first second third : Option CString} (hfirst : FieldPart first second)
    (hsecond : FieldPart second third) : FieldPart first third := by
  rcases hfirst with rfl | rfl
  · exact .inl rfl
  · exact hsecond

instance : Std.Refl StackFrame.PartOf :=
  ⟨fun _ => ⟨rfl, .refl _, .refl _, .refl _, .refl _, rfl, rfl⟩⟩

instance : IsTrans StackFrame StackFrame.PartOf where
  trans _ _ _ hfirst hsecond :=
    ⟨hfirst.frameNumber.trans hsecond.frameNumber, hfirst.address.trans hsecond.address,
      hfirst.method.trans hsecond.method, hfirst.params.trans hsecond.params,
      hfirst.file.trans hsecond.file, hfirst.line.trans hsecond.line,
      hfirst.rawLine.trans hsecond.rawLine⟩

instance : Std.Refl ThreadInfo.PartOf := ⟨fun _ => ⟨rfl, .inl rfl, rfl, refl _⟩⟩

instance : IsTrans ThreadInfo ThreadInfo.PartOf where
  trans _ _ _ hfirst hsecond := by
    refine ⟨hfirst.threadId.trans hsecond.threadId, ?_, hfirst.lwp.trans hsecond.lwp,
      IsTrans.trans _ _ _ hfirst.frames hsecond.frames⟩
    rcases hfirst.name with hname | hname
    · rw [hname]
      exact hsecond.name
    · exact .inr hname

theorem ThreadsPartOf.refl (threads : List ThreadInfo) : ThreadsPartOf threads threads :=
  (List.Sublist.refl threads).sublistForall₂

theorem ThreadsPartOf.trans {first second third : List ThreadInfo}
    (hfirst : ThreadsPartOf first second) (hsecond : ThreadsPartOf second third) :
    ThreadsPartOf first third :=
  IsTrans.trans (r := List.SublistForall₂ ThreadInfo.PartOf) _ _ _ hfirst hsecond

/-- Lists with a part of each other are put together. -/
theorem sublistForall₂_append {α β : Type} {R : α → β → Prop} {part part' : List α}
    {whole whole' : List β} (hfront : part.SublistForall₂ R whole)
    (hback : part'.SublistForall₂ R whole') :
    (part ++ part').SublistForall₂ R (whole ++ whole') := by
  obtain ⟨front, hR, hsub⟩ := List.sublistForall₂_iff.mp hfront
  obtain ⟨back, hR', hsub'⟩ := List.sublistForall₂_iff.mp hback
  exact List.sublistForall₂_iff.mpr ⟨front ++ back, List.rel_append hR hR', hsub.append hsub'⟩

theorem sublistForall₂_singleton {α β : Type} {R : α → β → Prop} {a : α} {b : β} (hab : R a b) :
    [a].SublistForall₂ R [b] := .cons hab .nil

end Parts

/-- The blocks of a frame. -/
def HeapFrame.held (f : HeapFrame) : Multiset ℕ :=
  (fieldBlock f.address : Multiset ℕ) + fieldBlock f.method + fieldBlock f.params +
    fieldBlock f.file + fieldBlock f.rawLine + {f.block}

/-- The nodes of a list. -/
def nodes {α : Type} (list : List (GNode α)) : Multiset ℕ := list.map GNode.node

/-- The blocks of the frames of a list. -/
def framesHeld (frames : List (GNode HeapFrame)) : Multiset ℕ :=
  (frames.map fun l => l.data.held).sum + nodes frames

/-- The blocks of a thread. -/
def HeapThread.held (t : HeapThread) : Multiset ℕ :=
  (fieldBlock t.name : Multiset ℕ) + framesHeld t.frames + {t.block}

/-- The blocks of the threads of a list. -/
def threadsHeld (threads : List (GNode HeapThread)) : Multiset ℕ :=
  (threads.map fun l => l.data.held).sum + nodes threads

section Held

@[simp]
theorem fieldBlock_none : fieldBlock none = [] := rfl

@[simp]
theorem fieldBlock_some (str : HeapString) : fieldBlock (some str) = [str.block] := rfl

theorem framesHeld_append_node (frames : List (GNode HeapFrame)) (node : ℕ) (f : HeapFrame) :
    framesHeld (frames ++ [⟨node, f⟩]) = framesHeld frames + ({node} + f.held) := by
  simp only [framesHeld, nodes, List.map_append, List.sum_append, List.map_cons, List.map_nil,
    List.sum_cons, List.sum_nil, ← Multiset.coe_add, Multiset.coe_singleton, add_zero]
  abel

theorem threadsHeld_append (threads threads' : List (GNode HeapThread)) :
    threadsHeld (threads ++ threads') = threadsHeld threads + threadsHeld threads' := by
  simp only [threadsHeld, nodes, List.map_append, List.sum_append, ← Multiset.coe_add]
  abel

theorem threadsHeld_singleton (l : GNode HeapThread) :
    threadsHeld [l] = l.data.held + {l.node} := by
  simp [threadsHeld, nodes]

theorem owns_gListAppend {α : Type} (list : List (GNode α)) (data : α) :
    Owns 0 (gListAppend list data) fun out left =>
      ∃ node, left = {node} ∧ out = list ++ [⟨node, data⟩] :=
  owns_alloc.step fun node _ hleft => owns_pure ⟨node, hleft, rfl⟩

/-- `stack_frame_free` gives back all blocks of a frame. -/
theorem owns_stackFrameFree (f : HeapFrame) :
    Owns f.held (stackFrameFree f) fun _ left => left = 0 := by
  unfold stackFrameFree HeapFrame.held
  refine (owns_free _).bind (r := fieldBlock f.method + fieldBlock f.params + fieldBlock f.file +
    fieldBlock f.rawLine + {f.block}) (by abel) fun _ left hleft => ?_
  rw [hleft, zero_add]
  refine (owns_free _).bind (r := fieldBlock f.params + fieldBlock f.file +
    fieldBlock f.rawLine + {f.block}) (by abel) fun _ left hleft => ?_
  rw [hleft, zero_add]
  refine (owns_free _).bind (r := fieldBlock f.file + fieldBlock f.rawLine + {f.block}) (by abel)
    fun _ left hleft => ?_
  rw [hleft, zero_add]
  refine (owns_free _).bind (r := fieldBlock f.rawLine + {f.block}) (by abel)
    fun _ left hleft => ?_
  rw [hleft, zero_add]
  refine (owns_free _).bind rfl fun _ left hleft => ?_
  rw [hleft, zero_add]
  exact owns_freeOne f.block

/-- So does `thread_info_free` with those of a thread. -/
theorem owns_threadInfoFree (t : HeapThread) :
    Owns t.held (threadInfoFree t) fun _ left => left = 0 := by
  have hframes : Owns (t.frames.map fun l => l.data.held).sum
      (t.frames.forM fun l => stackFrameFree l.data) fun _ left => left = 0 :=
    @owns_forM _ (fun l => l.data.held) (fun l => stackFrameFree l.data)
      (fun l => owns_stackFrameFree l.data) t.frames
  unfold threadInfoFree HeapThread.held framesHeld
  refine (owns_free _).bind (add_assoc _ _ _) fun _ left hleft => ?_
  rw [hleft, zero_add]
  refine hframes.bind (add_assoc _ _ _) fun _ left hleft => ?_
  rw [hleft, zero_add]
  refine (owns_free _).bind rfl fun _ left hleft => ?_
  rw [hleft, zero_add]
  exact owns_freeOne t.block

/-- And `thread_info_list_free` with those of a list. -/
theorem owns_threadInfoListFree (threads : List (GNode HeapThread)) :
    Owns (threadsHeld threads) (threadInfoListFree threads) fun _ left => left = 0 := by
  have hthreads : Owns (threads.map fun l => l.data.held).sum
      (threads.forM fun l => threadInfoFree l.data) fun _ left => left = 0 :=
    @owns_forM _ (fun l => l.data.held) (fun l => threadInfoFree l.data)
      (fun l => owns_threadInfoFree l.data) threads
  unfold threadInfoListFree threadsHeld
  refine hthreads.bind rfl fun _ left hleft => ?_
  rw [hleft, zero_add]
  exact owns_free _

end Held

/-! ## A frame -/

section Parsed

variable {grants : DumpGrants}

/-- What is left of a text that was to be copied. -/
structure CopyOf (grant : ℕ → Bool) (text : Option CString) (copy : Option HeapString)
    (left : Multiset ℕ) : Prop where
  left_eq : left = fieldBlock copy
  part : FieldPart (copy.map HeapString.text) text
  whole : (∀ n, grant n) → copy.map HeapString.text = text

theorem owns_copyText (grant : ℕ → Bool) (text : CString) :
    Owns 0 (copyText grant text) fun copy left => CopyOf grant (some text) copy left := by
  refine (owns_malloc grant).step fun out left hout => ?_
  obtain ⟨rfl, hmet⟩ := hout
  cases out with
  | none => exact owns_pure ⟨rfl, .inl rfl, fun hall => absurd rfl (hmet hall)⟩
  | some block => exact owns_pure ⟨rfl, .inr rfl, fun _ => rfl⟩

theorem owns_copyField (grant : ℕ → Bool) (text : Option CString) :
    Owns 0 (copyField grant text) fun copy left => CopyOf grant text copy left := by
  cases text with
  | none => exact owns_pure ⟨rfl, .inl rfl, fun _ => rfl⟩
  | some text => exact owns_copyText grant text

/-- The frame of a line, behind its `#`. -/
def frameOf (line p : CString) : StackFrame :=
  let number := parseFrameNumber p
  let address := parseAddress number.2
  let method := parseMethod address.2
  let params := parseParams method.2
  let file := parseFile params.2
  ⟨number.1, address.1, method.1, params.1, file.1, file.2, line⟩

theorem gdbOutputStackFrameParse_eq_frameOf {line p : CString} (hp : frameText line = some p) :
    gdbOutputStackFrameParse line =
      if intMax < digitsValue (p.takeWhile isdigit) then .overflow
      else .frame (frameOf line p) := by
  simp only [gdbOutputStackFrameParse, hp]
  rfl

/-- What a line leaves: a frame with some of the fields, or nothing. -/
def HeapFrameParse.Leaves (grants : DumpGrants) (line : CString) (left : Multiset ℕ) :
    HeapFrameParse → Prop
  | .noFrame => left = 0 ∧ (Met grants → gdbOutputStackFrameParse line = .noFrame)
  | .overflow => gdbOutputStackFrameParse line = .overflow
  | .frame f => left = f.held ∧ ∃ frame, gdbOutputStackFrameParse line = .frame frame ∧
      f.seen.PartOf frame ∧ (Met grants → f.seen = frame)

theorem owns_gdbOutputStackFrameParseIn (line : CString) :
    Owns 0 (gdbOutputStackFrameParseIn grants line) fun out left =>
      out.Leaves grants line left := by
  unfold gdbOutputStackFrameParseIn
  cases hp : frameText line with
  | none => exact owns_pure ⟨rfl, fun _ => by simp only [gdbOutputStackFrameParse, hp]⟩
  | some p =>
      dsimp only
      refine (owns_malloc _).step fun out left hout => ?_
      obtain ⟨rfl, hmet⟩ := hout
      cases out with
      | none => exact owns_pure ⟨rfl, fun hall => absurd rfl (hmet (hall _))⟩
      | some block =>
          refine (owns_copyText _ line).bind (zero_add _).symm fun rawLine left hraw => ?_
          cases rawLine with
          | none =>
              rw [hraw.left_eq]
              refine Owns.step (owns_stackFrameFree (.fresh block)) fun _ left hleft => ?_
              exact owns_pure
                ⟨hleft, fun hall => absurd (hraw.whole (hall _)).symm (Option.some_ne_none _)⟩
          | some rawLine =>
              have hparse := gdbOutputStackFrameParse_eq_frameOf hp
              dsimp only
              split_ifs with hoverflow
              · exact owns_pure (hparse.trans (if_pos hoverflow))
              rw [if_neg hoverflow] at hparse
              refine (owns_copyField _ _).bind (zero_add _).symm fun address left₁ haddress => ?_
              refine (owns_copyField _ _).bind (zero_add _).symm fun method left₂ hmethod => ?_
              refine (owns_copyField _ _).bind (zero_add _).symm fun params left₃ hparams => ?_
              refine (owns_copyField _ _).bind (zero_add _).symm fun file left₄ hfile => ?_
              have hline : rawLine.text = line :=
                hraw.part.elim (fun hnone => absurd hnone (Option.some_ne_none _)) Option.some.inj
              refine owns_pure ⟨?_, _, hparse, ⟨rfl, haddress.part, hmethod.part, hparams.part,
                hfile.part, rfl, hline⟩, fun hall => ?_⟩
              · rw [haddress.left_eq, hmethod.left_eq, hparams.left_eq, hfile.left_eq, hraw.left_eq]
                simp only [HeapFrame.held, toList_some]
                abel
              · simp only [HeapFrame.seen, frameOf, haddress.whole (hall _), hmethod.whole (hall _),
                  hparams.whole (hall _), hfile.whole (hall _), hline, Option.map_some,
                  Option.getD_some]

/-- The name of a thread, or what stands for it. -/
structure NameOf (grants : DumpGrants) (name : CString) (copy : Option HeapString)
    (left : Multiset ℕ) : Prop where
  left_eq : left = fieldBlock copy
  part : (copy.map HeapString.text).getD (cstr "?") = name ∨
    (copy.map HeapString.text).getD (cstr "?") ∈ placeholderNames
  whole : Met grants → (copy.map HeapString.text).getD (cstr "?") = name

/-- A name that is not there is replaced. -/
theorem owns_copyInstead {site site' : DumpSite} {name other : CString} {field : Option CString}
    {copy : Option HeapString} {left : Multiset ℕ} (hname : field.getD other = name)
    (hother : other ∈ placeholderNames) (hcopy : CopyOf (grants site) field copy left) :
    Owns left (copyInstead copy (grants site') other) fun out left =>
      NameOf grants name out left := by
  rw [hcopy.left_eq]
  cases copy with
  | some str =>
      have hfield : some str.text = field :=
        hcopy.part.elim (fun hnone => absurd hnone (Option.some_ne_none _)) id
      have htext : str.text = name := by
        rw [← hname, ← hfield]
        rfl
      exact owns_pure ⟨rfl, .inl htext, fun _ => htext⟩
  | none =>
      refine (owns_copyText _ _).mono fun out left hout => ⟨hout.left_eq, .inr ?_, fun hall => ?_⟩
      · rcases hout.part with hnone | hsome
        · rw [hnone]
          decide
        · rw [hsome]
          exact hother
      · rw [hout.whole (hall _), ← hname, ← hcopy.whole (hall _)]
        rfl

/-- With `?` in its place a thread is shown as without a name. -/
theorem owns_copyInstead_unknown {grant : ℕ → Bool} {name : CString} {copy : Option HeapString}
    {left : Multiset ℕ} (hcopy : NameOf grants name copy left) :
    Owns left (copyInstead copy grant (cstr "?")) fun out left => NameOf grants name out left := by
  rw [hcopy.left_eq]
  cases copy with
  | some str => exact owns_pure ⟨rfl, hcopy.part, hcopy.whole⟩
  | none =>
      refine (owns_copyText _ _).mono fun out left hout => ?_
      have hunknown : (out.map HeapString.text).getD (cstr "?") = cstr "?" := by
        rcases hout.part with hnone | hsome
        · rw [hnone]
          rfl
        · rw [hsome]
          rfl
      refine ⟨hout.left_eq, ?_, ?_⟩
      · rw [hunknown]
        exact hcopy.part
      · rw [hunknown]
        exact hcopy.whole

/-- What a header leaves: its thread, or nothing. -/
structure ThreadOf (grants : DumpGrants) (thread : Option ThreadInfo) (out : Option HeapThread)
    (left : Multiset ℕ) : Prop where
  left_eq : left = out.elim 0 HeapThread.held
  part : ∀ part ∈ out, ∃ whole ∈ thread, part.seen.PartOf whole
  whole : Met grants → out.map HeapThread.seen = thread

/-- A thread without frames. -/
theorem threadOf_of_name {name : CString} {copy : Option HeapString} {left : Multiset ℕ}
    (hname : NameOf grants name copy left) (block : ℕ) (threadId lwp : ℤ) :
    ThreadOf grants (some ⟨threadId, name, lwp, []⟩) (some ⟨block, threadId, copy, lwp, []⟩)
      (left + {block}) where
  left_eq := by
    simp [hname.left_eq, HeapThread.held, framesHeld, nodes]
  part part hpart := by
    obtain rfl := Option.some.inj hpart
    exact ⟨_, rfl, rfl, hname.part, rfl, .nil⟩
  whole hall := by
    simp [HeapThread.seen, hname.whole hall]

theorem owns_gdbOutputThreadInfoParseIn (line : CString) :
    Owns 0 (gdbOutputThreadInfoParseIn grants line) fun out left =>
      ThreadOf grants (gdbOutputThreadInfoParse line) out left := by
  unfold gdbOutputThreadInfoParseIn gdbOutputThreadInfoParse
  cases dropWord (cstr "Thread ") (skipBlanks line) with
  | none => exact owns_pure ⟨rfl, by simp, fun _ => rfl⟩
  | some p =>
      dsimp only
      refine (owns_malloc _).step fun out left hout => ?_
      obtain ⟨rfl, hmet⟩ := hout
      cases out with
      | none => exact owns_pure ⟨rfl, by simp, fun hall => absurd rfl (hmet (hall _))⟩
      | some block =>
          dsimp only
          by_cases hdigit : p.head?.any isdigit = true
          · rw [if_pos hdigit, if_pos hdigit]
            refine (owns_copyField _ _).bind (zero_add _).symm fun quoted left hquoted => ?_
            have hname : (if threadName line = [] then none else some (threadName line)).getD [] =
                threadName line := by
              split_ifs with hempty
              · exact hempty.symm
              · rfl
            refine (owns_copyInstead hname (by decide) hquoted).bind rfl
              fun name left hname => owns_pure ?_
            exact threadOf_of_name hname block _ _
          · rw [if_neg hdigit, if_neg hdigit]
            have hfree : Owns {block} (threadInfoFree (.fresh block)) fun _ left => left = 0 :=
              owns_threadInfoFree (.fresh block)
            exact hfree.step fun _ left hleft => owns_pure ⟨hleft, by simp, fun _ => rfl⟩

theorem backtraceThreadNameFromLine_eq (line : CString) :
    (parenthesizedName line).getD (cstr "current") = backtraceThreadNameFromLine line := by
  unfold parenthesizedName backtraceThreadNameFromLine
  cases strchr line openParen with
  | none => rfl
  | some found =>
      dsimp only
      cases strchr found.2.tail closeParen with
      | none => rfl
      | some name =>
          dsimp only
          split_ifs <;> rfl

theorem owns_backtraceThreadIn (line : CString) :
    Owns 0 (backtraceThreadIn grants line) fun out left =>
      ThreadOf grants (some ⟨0, backtraceThreadNameFromLine line, 0, []⟩) out left := by
  unfold backtraceThreadIn
  refine (owns_malloc _).step fun out left hout => ?_
  obtain ⟨rfl, hmet⟩ := hout
  cases out with
  | none => exact owns_pure ⟨rfl, by simp, fun hall => absurd rfl (hmet (hall _))⟩
  | some block =>
      have hfound : Owns 0 (backtraceThreadNameFromLineIn grants line) fun out left =>
          NameOf grants (backtraceThreadNameFromLine line) out left :=
        (owns_copyField _ _).step fun _ _ hcopy =>
          owns_copyInstead (backtraceThreadNameFromLine_eq line) (by decide) hcopy
      refine hfound.bind (zero_add _).symm fun found left hname => ?_
      refine (owns_copyInstead_unknown hname).bind rfl fun name left hname => owns_pure ?_
      exact threadOf_of_name hname block 0 0

/-! ## The lines -/

/-- The threads, as the functions that print them read them. -/
def seenThreads (threads : List (GNode HeapThread)) : List ThreadInfo :=
  threads.map fun l => l.data.seen

def HeapThreads.seen (s : HeapThreads) : BacktraceState :=
  ⟨seenThreads s.threads, s.current.map fun l => l.data.seen⟩

/-- The blocks of the list `result`. -/
def HeapThreads.held (s : HeapThreads) : Multiset ℕ := threadsHeld s.result

/-- Some of the threads. The current one is a part of the current one. -/
structure BacktraceState.PartOf (part whole : BacktraceState) : Prop where
  threads : ThreadsPartOf part.threads whole.threads
  current : ∀ thread ∈ part.current, ∃ thread' ∈ whole.current, thread.PartOf thread'

/-- What has been found so far. -/
structure HeapThreads.Reads (grants : DumpGrants) (s : HeapThreads) (p : BacktraceState) :
    Prop where
  part : s.seen.PartOf p
  whole : Met grants → s.seen = p

/-- A line is read and leaves the threads up to it. -/
def Continues (grants : DumpGrants) (p : BacktraceState) (out : Option HeapThreads)
    (left : Multiset ℕ) : Prop :=
  ∃ s, out = some s ∧ left = s.held ∧ s.Reads grants p

theorem seen_result (s : HeapThreads) : s.seen.result = seenThreads s.result := by
  simp only [HeapThreads.seen, BacktraceState.result, HeapThreads.result, seenThreads,
    List.map_append]
  cases s.current <;> rfl

theorem BacktraceState.PartOf.result {part whole : BacktraceState} (hpart : part.PartOf whole) :
    ThreadsPartOf part.result whole.result := by
  refine sublistForall₂_append hpart.threads ?_
  cases hcurrent : part.current with
  | none => exact .nil
  | some thread =>
      obtain ⟨thread', hwhole, hthread⟩ := hpart.current thread hcurrent
      rw [Option.mem_def.mp hwhole]
      exact .cons hthread .nil

/-- More frames have been found. -/
theorem ThreadInfo.PartOf.grow {part whole : ThreadInfo} (hpart : part.PartOf whole)
    (frames : List StackFrame) :
    part.PartOf { whole with frames := whole.frames ++ frames } where
  threadId := hpart.threadId
  name := hpart.name
  lwp := hpart.lwp
  frames := by
    have hnone : ([] : List StackFrame).SublistForall₂ StackFrame.PartOf frames := .nil
    have happend := sublistForall₂_append hpart.frames hnone
    rwa [List.append_nil] at happend

theorem held_of_current {threads : List (GNode HeapThread)} {l : GNode HeapThread} :
    (HeapThreads.mk threads (some l)).held =
      framesHeld l.data.frames +
        (fieldBlock l.data.name + {l.data.block} + {l.node} + threadsHeld threads) := by
  simp only [HeapThreads.held, HeapThreads.result, Option.toList_some, threadsHeld_append,
    threadsHeld_singleton, HeapThread.held]
  abel

/-- The last branch of both loops. -/
def addFrame (s : BacktraceState) (line : CString) : Option BacktraceState :=
  match s.current with
  | none => some s
  | some thread =>
      if line.head? = some hash then
        match gdbOutputStackFrameParse line with
        | .noFrame => some s
        | .overflow => none
        | .frame f => some { s with current := some { thread with frames := thread.frames ++ [f] } }
      else some s

/-- The frame of a line goes to the current thread, if there is one. -/
theorem addFrame_eq_some {p p' : BacktraceState} {line : CString}
    (hp : addFrame p line = some p') :
    p.current = none ∧ p' = p ∨ ∃ thread, p.current = some thread ∧ lineFrame line ≠ .overflow ∧
      p' = ⟨p.threads, some { thread with
        frames := thread.frames ++ ((lineFrame line).frame?).toList }⟩ := by
  obtain ⟨threads, current⟩ := p
  cases current with
  | none => exact .inl ⟨rfl, (Option.some.inj hp).symm⟩
  | some thread =>
      refine .inr ⟨thread, rfl, ?_⟩
      by_cases hhash : line.head? = some hash
      · have hframe : lineFrame line = gdbOutputStackFrameParse line := if_pos hhash
        simp only [addFrame, if_pos hhash] at hp
        rw [hframe]
        cases hparse : gdbOutputStackFrameParse line with
        | noFrame =>
            rw [hparse] at hp
            exact ⟨by simp, by simp [← Option.some.inj hp, FrameParse.frame?]⟩
        | overflow =>
            rw [hparse] at hp
            cases hp
        | frame f =>
            rw [hparse] at hp
            exact ⟨by simp, (Option.some.inj hp).symm⟩
      · have hframe : lineFrame line = .noFrame := if_neg hhash
        simp only [addFrame, if_neg hhash] at hp
        exact ⟨by simp [hframe], by simp [← Option.some.inj hp, hframe, FrameParse.frame?]⟩

/-- The thread with one more node is what the state without the node and the frame held. -/
theorem owns_addFrameIn {s : HeapThreads} {p p' : BacktraceState} {line : CString}
    (hs : s.Reads grants p) (hp : addFrame p line = some p') :
    Owns s.held (addFrameIn grants s line) (Continues grants p') := by
  obtain ⟨threads, current⟩ := s
  cases current with
  | none =>
      refine owns_pure ⟨_, rfl, rfl, ?_, fun hall => ?_⟩
      · refine ⟨?_, by simp [HeapThreads.seen]⟩
        rcases addFrame_eq_some hp with ⟨_, rfl⟩ | ⟨thread, _, _, rfl⟩ <;> exact hs.part.threads
      · rw [← hs.whole hall] at hp
        exact Option.some.inj hp
  | some l =>
      obtain ⟨thread, hcurrent, hpart⟩ := hs.part.current l.data.seen rfl
      rcases addFrame_eq_some hp with ⟨hnone, _⟩ | ⟨thread', hthread, hoverflow, rfl⟩
      · rw [hnone] at hcurrent
        cases hcurrent
      obtain rfl : thread = thread' := Option.some.inj (hcurrent.symm.trans hthread)
      -- The state is left as it was, because the line has no frame or there is no memory for it.
      have hstays (hframe : Met grants → (lineFrame line).frame? = none) :
          Continues grants ⟨p.threads, some { thread with
            frames := thread.frames ++ ((lineFrame line).frame?).toList }⟩
            (some ⟨threads, some l⟩) (HeapThreads.mk threads (some l)).held := by
        refine ⟨_, rfl, rfl, ⟨hs.part.threads, fun part hmem => ?_⟩, fun hall => ?_⟩
        · obtain rfl := Option.some.inj hmem
          exact ⟨_, rfl, hpart.grow _⟩
        · have hwhole := hs.whole hall
          rw [hframe hall, hwhole]
          obtain ⟨_, current⟩ := p
          obtain rfl : current = some thread := hthread
          simp
      unfold addFrameIn
      by_cases hhash : line.head? = some hash
      · rw [lineFrame, if_pos hhash] at hoverflow hstays ⊢
        dsimp only
        rw [if_pos hhash]
        refine (owns_gdbOutputStackFrameParseIn line).bind (zero_add _).symm fun out left hout => ?_
        cases out with
        | noFrame =>
            obtain ⟨rfl, hnone⟩ := hout
            rw [zero_add]
            exact owns_pure (hstays fun hall => by rw [hnone hall]; rfl)
        | overflow => exact absurd hout hoverflow
        | frame f =>
            obtain ⟨rfl, frame, hparse, hframe, hwhole⟩ := hout
            refine (owns_gListAppend _ f).bind (zero_add _).symm fun frames left happended =>
              owns_pure ?_
            obtain ⟨node, rfl, rfl⟩ := happended
            rw [hparse, held_of_current]
            refine ⟨_, rfl, ?_, ⟨hs.part.threads, fun part hmem => ?_⟩, fun hall => ?_⟩
            · rw [held_of_current, framesHeld_append_node]
              abel
            · obtain rfl := Option.some.inj hmem
              refine ⟨_, rfl, hpart.threadId, hpart.name, hpart.lwp, ?_⟩
              have happend := sublistForall₂_append hpart.frames
                (sublistForall₂_singleton hframe)
              simpa [HeapThread.seen, FrameParse.frame?] using happend
            · have hthreads := congrArg BacktraceState.threads (hs.whole hall)
              have hsame := (congrArg BacktraceState.current (hs.whole hall)).trans hthread
              have hseen : l.data.seen = thread := Option.some.inj hsame
              simp only [HeapThreads.seen, HeapThread.seen] at hthreads ⊢
              rw [hthreads, ← hseen, ← hwhole hall]
              simp [HeapThread.seen, FrameParse.frame?]
      · dsimp only
        rw [if_neg hhash]
        exact owns_pure (hstays fun _ => by rw [lineFrame, if_neg hhash]; rfl)

/-- Where a header begins another thread. -/
theorem owns_beginThread {s : HeapThreads} {p : BacktraceState} {thread : Option ThreadInfo}
    {out : Option HeapThread} {left : Multiset ℕ} (hs : s.Reads grants p)
    (hout : ThreadOf grants thread out left) :
    Owns (left + s.held) (beginThread s out) fun s' left' =>
      left' = s'.held ∧ s'.Reads grants ⟨p.result, thread⟩ := by
  have hresult : ThreadsPartOf (seenThreads s.result) p.result := by
    rw [← seen_result]
    exact hs.part.result
  have hwhole (hall : Met grants) : seenThreads s.result = p.result := by
    rw [← seen_result, hs.whole hall]
  rw [hout.left_eq]
  cases out with
  | none =>
      refine owns_pure ⟨?_, ⟨hresult, by simp [HeapThreads.seen]⟩, fun hall => ?_⟩
      · simp [HeapThreads.held, HeapThreads.result]
      · rw [← hwhole hall, ← hout.whole hall]
        rfl
  | some t =>
      refine owns_alloc.bind (zero_add _).symm fun node left hleft => owns_pure ?_
      refine ⟨?_, ⟨hresult, fun part hmem => ?_⟩, fun hall => ?_⟩
      · rw [hleft]
        simp only [HeapThreads.held, HeapThreads.result, Option.toList_some, threadsHeld_append,
          threadsHeld_singleton, Option.elim_some]
        abel
      · obtain rfl := Option.some.inj hmem
        exact hout.part t rfl
      · rw [← hwhole hall, ← hout.whole hall]
        rfl

theorem gdbOutputLine_eq (p : BacktraceState) (line : CString) :
    gdbOutputLine p line =
      if isGdbNoiseLine line then some p
      else if isThreadHeader line then some ⟨p.result, gdbOutputThreadInfoParse line⟩
      else addFrame p line := rfl

theorem backtraceLine_eq (p : BacktraceState) (line : CString) :
    backtraceLine p line =
      if isBacktraceThreadHeader line then
        some ⟨p.result, some ⟨0, backtraceThreadNameFromLine line, 0, []⟩⟩
      else addFrame p line := rfl

/-- One round of the loop of `gdb_output_parse`. -/
theorem owns_gdbOutputLineIn {s : HeapThreads} {p p' : BacktraceState} {line : CString}
    (hs : s.Reads grants p) (hp : gdbOutputLine p line = some p') :
    Owns s.held (gdbOutputLineIn grants s line) (Continues grants p') := by
  rw [gdbOutputLine_eq] at hp
  unfold gdbOutputLineIn
  split_ifs at hp ⊢ with hnoise hheader
  · obtain rfl := Option.some.inj hp
    exact owns_pure ⟨s, rfl, rfl, hs⟩
  · obtain rfl := Option.some.inj hp
    refine (owns_gdbOutputThreadInfoParseIn line).bind (zero_add _).symm fun out left hout => ?_
    exact (owns_beginThread hs hout).step fun s' left' hs' =>
      owns_pure ⟨s', rfl, hs'.1, hs'.2⟩
  · exact owns_addFrameIn hs hp

/-- One round of the loop of `backtrace_parse`. -/
theorem owns_backtraceLineIn {s : HeapThreads} {p p' : BacktraceState} {line : CString}
    (hs : s.Reads grants p) (hp : backtraceLine p line = some p') :
    Owns s.held (backtraceLineIn grants s line) (Continues grants p') := by
  rw [backtraceLine_eq] at hp
  unfold backtraceLineIn
  split_ifs at hp ⊢ with hheader
  · obtain rfl := Option.some.inj hp
    refine (owns_backtraceThreadIn line).bind (zero_add _).symm fun out left hout => ?_
    exact (owns_beginThread hs hout).step fun s' left' hs' =>
      owns_pure ⟨s', rfl, hs'.1, hs'.2⟩
  · exact owns_addFrameIn hs hp

theorem threadsPartOf_addFrame {p p' : BacktraceState} {line : CString}
    (hp : addFrame p line = some p') : ThreadsPartOf p.result p'.result := by
  rcases addFrame_eq_some hp with ⟨_, rfl⟩ | ⟨thread, hthread, _, rfl⟩
  · exact .refl _
  · have hpart : p.PartOf ⟨p.threads, some { thread with
        frames := thread.frames ++ ((lineFrame line).frame?).toList }⟩ := by
      refine ⟨.refl _, fun part hmem => ?_⟩
      obtain rfl : thread = part := Option.some.inj (hthread.symm.trans hmem)
      exact ⟨_, rfl, (refl (r := ThreadInfo.PartOf) thread).grow _⟩
    exact hpart.result

theorem threadsPartOf_begin (p : BacktraceState) (thread : Option ThreadInfo) :
    ThreadsPartOf p.result (BacktraceState.mk p.result thread).result :=
  (List.sublist_append_left p.result thread.toList).sublistForall₂

theorem threadsPartOf_gdbOutputLine {p p' : BacktraceState} {line : CString}
    (hp : gdbOutputLine p line = some p') : ThreadsPartOf p.result p'.result := by
  rw [gdbOutputLine_eq] at hp
  split_ifs at hp with hnoise hheader
  · obtain rfl := Option.some.inj hp
    exact .refl _
  · obtain rfl := Option.some.inj hp
    exact threadsPartOf_begin p _
  · exact threadsPartOf_addFrame hp

theorem threadsPartOf_backtraceLine {p p' : BacktraceState} {line : CString}
    (hp : backtraceLine p line = some p') : ThreadsPartOf p.result p'.result := by
  rw [backtraceLine_eq] at hp
  split_ifs at hp with hheader
  · obtain rfl := Option.some.inj hp
    exact threadsPartOf_begin p _
  · exact threadsPartOf_addFrame hp

/-! ## The loop -/

theorem owns_growLineIn (buffer : HeapLine) (len : ℕ) :
    Owns {buffer.block} (growLineIn grants buffer len) fun out left =>
      out.elim (left = {buffer.block} ∧ ¬ Met grants) fun grown => left = {grown.block} := by
  unfold growLineIn
  split_ifs
  · refine (owns_realloc (grants .lineGrow) (some buffer.block)).step fun out left hout => ?_
    obtain ⟨hnone, hsome, hmet⟩ := hout
    cases out with
    | none => exact owns_pure ⟨hnone rfl, fun hall => absurd rfl (hmet (hall _))⟩
    | some block => exact owns_pure (hsome block rfl)
  · exact owns_pure rfl

/-- How the lines of a stream begin with what has been read from it. -/
def ReadsFront (stream part rest : List UInt8) : Prop :=
  stream = [] ∧ part = [] ∨ part ≠ [] ∧ byteLines stream = part :: byteLines rest

theorem readsFront_cons {ch : UInt8} {stream part rest : List UInt8} (hch : ch ≠ 10)
    (hfront : ReadsFront stream part rest) (hrest : stream = [] → rest = []) :
    ReadsFront (ch :: stream) (ch :: part) rest := by
  refine .inr ⟨List.cons_ne_nil _ _, ?_⟩
  rw [byteLines, if_neg hch]
  rcases hfront with ⟨rfl, rfl⟩ | ⟨_, hlines⟩
  · rw [hrest rfl]
    rfl
  · rw [hlines]

/-- The loop has one buffer all along. -/
theorem owns_getlineLoopIn (stream : List UInt8) (buffer : HeapLine) (text : List UInt8) :
    Owns {buffer.block} (getlineLoopIn grants stream buffer text) fun out left =>
      left = {out.1.block} ∧ out.2.elim (¬ Met grants) fun read =>
        (stream = [] → read.2 = []) ∧
          ∃ part, read.1 = text ++ part ∧ ReadsFront stream part read.2 := by
  induction stream generalizing buffer text with
  | nil => exact owns_pure ⟨rfl, fun _ => rfl, [], (List.append_nil text).symm, .inl ⟨rfl, rfl⟩⟩
  | cons ch rest ih =>
      refine (owns_growLineIn buffer text.length).step fun out left hout => ?_
      cases out with
      | none => exact owns_pure hout
      | some grown =>
          obtain rfl := hout
          dsimp only
          by_cases hch : ch = 10
          · rw [if_pos hch]
            refine owns_pure ⟨rfl, fun hnil => ?_, [ch], rfl, .inr ⟨List.cons_ne_nil _ _, ?_⟩⟩
            · cases hnil
            · rw [byteLines, if_pos hch]
          · rw [if_neg hch]
            refine (ih grown (text ++ [ch])).mono fun out left hout => ⟨hout.1, ?_⟩
            cases hread : out.2 with
            | none =>
                rw [hread] at hout
                exact hout.2
            | some read =>
                rw [hread] at hout
                obtain ⟨_, hrest, part, hpart, hfront⟩ := hout
                refine ⟨fun hnil => ?_, ch :: part, ?_, readsFront_cons hch hfront hrest⟩
                · cases hnil
                · rw [hpart, List.append_assoc]
                  rfl

/-- What a call of `str_getline` reads. -/
def ReadsLine (grants : DumpGrants) (stream : List UInt8) :
    Option (List UInt8 × List UInt8) → Prop
  | none => Met grants → byteLines stream = []
  | some read => byteLines stream = read.1 :: byteLines read.2

theorem owns_readLineIn (buffer : HeapLine) (stream : List UInt8) :
    Owns {buffer.block} (readLineIn grants buffer stream) fun out left =>
      left = (out.1.map HeapLine.block).toList ∧ ReadsLine grants stream out.2 := by
  refine (owns_getlineLoopIn stream buffer []).step fun out left hout => owns_pure ?_
  obtain ⟨buffer', read⟩ := out
  obtain ⟨rfl, hread⟩ := hout
  refine ⟨rfl, ?_⟩
  cases read with
  | none => exact fun hall => absurd hall hread
  | some read =>
      obtain ⟨text, rest⟩ := read
      obtain ⟨_, part, hpart, hfront⟩ := hread
      obtain rfl : text = part := hpart
      rcases hfront with ⟨rfl, rfl⟩ | ⟨htext, hlines⟩
      · exact fun _ => rfl
      · have hkept : (some (text, rest)).filter (fun read => read.1 ≠ []) = some (text, rest) := by
          simp [Option.filter, htext]
        change ReadsLine grants stream ((some (text, rest)).filter fun read => read.1 ≠ [])
        rw [hkept]
        exact hlines

theorem owns_strGetlineIn (lineptr : Option HeapLine) (stream : List UInt8) :
    Owns (lineptr.map HeapLine.block).toList (strGetlineIn grants lineptr stream) fun out left =>
      left = (out.1.map HeapLine.block).toList ∧ ReadsLine grants stream out.2 := by
  cases lineptr with
  | some buffer => exact owns_readLineIn buffer stream
  | none =>
      refine (owns_malloc (grants .line)).step fun out left hout => ?_
      obtain ⟨rfl, hmet⟩ := hout
      cases out with
      | none => exact owns_pure ⟨rfl, fun hall => absurd rfl (hmet (hall _))⟩
      | some block => exact owns_readLineIn ⟨block, 128⟩ stream

/-- **The loop over the lines.** Each line is read by a parser that continues as the one without
memory does. When no more lines can be read, those that are left only add to what was found. -/
theorem owns_parseLinesIn {parseLine : HeapThreads → CString → Owning (Option HeapThreads)}
    {parse : BacktraceState → CString → Option BacktraceState}
    (hline : ∀ s p p' line, HeapThreads.Reads grants s p → parse p line = some p' →
      Owns s.held (parseLine s line) (Continues grants p'))
    (hgrow : ∀ p p' line, parse p line = some p' → ThreadsPartOf p.result p'.result)
    {calls : ℕ} {lineptr : Option HeapLine} {stream : List UInt8} {s : HeapThreads}
    {p q : BacktraceState} (hcalls : (byteLines stream).length < calls) (hs : s.Reads grants p)
    (hp : (readLines stream).foldlM parse p = some q) :
    Owns ((lineptr.map HeapLine.block).toList + s.held)
      (parseLinesIn grants parseLine calls lineptr stream s) fun out left =>
        ∃ s', out = some s' ∧ left = s'.held ∧ ThreadsPartOf s'.seen.result q.result ∧
          (Met grants → s'.seen = q) := by
  induction calls generalizing lineptr stream s p with
  | zero => exact absurd hcalls (Nat.not_lt_zero _)
  | succ calls ih =>
      refine (owns_strGetlineIn lineptr stream).bind rfl fun out left hout => ?_
      obtain ⟨lineptr', read⟩ := out
      obtain ⟨rfl, hread⟩ := hout
      cases read with
      | none =>
          refine (owns_free _).bind rfl fun _ left hleft => owns_pure ?_
          have hpq : ThreadsPartOf p.result q.result :=
            @foldlM_invariant _ _ parse (fun t => ThreadsPartOf p.result t.result) _
              (fun line _ t t' ht hstep => ht.trans (hgrow t t' line hstep)) p q (.refl _) hp
          refine ⟨s, rfl, by rw [hleft, zero_add], hs.part.result.trans hpq, fun hall => ?_⟩
          rw [readLines, hread hall] at hp
          exact (hs.whole hall).trans (Option.some.inj hp)
      | some read =>
          obtain ⟨text, rest⟩ := read
          have hlines : byteLines stream = text :: byteLines rest := hread
          rw [readLines, hlines, List.map_cons, List.foldlM_cons, Option.bind_eq_bind,
            Option.bind_eq_some_iff] at hp
          obtain ⟨p', hfirst, hrest⟩ := hp
          rw [hlines, List.length_cons] at hcalls
          refine (hline s p p' (textOf text) hs hfirst).bind (add_comm _ _) fun out left hout => ?_
          obtain ⟨s', rfl, rfl, hs'⟩ := hout
          rw [add_comm]
          exact ih (Nat.lt_of_succ_lt_succ hcalls) hs' hrest

theorem length_byteLines_le (stream : List UInt8) : (byteLines stream).length ≤ stream.length := by
  induction stream with
  | nil => exact le_rfl
  | cons ch rest ih =>
      rw [byteLines]
      split_ifs
      · exact Nat.succ_le_succ ih
      · cases hlines : byteLines rest with
        | nil => exact Nat.succ_le_succ (Nat.zero_le _)
        | cons line lines =>
            rw [hlines] at ih
            exact ih.trans (Nat.le_succ _)

/-- The list of a parser: some of the threads, and all that is held. -/
def ListsThreads (grants : DumpGrants) (whole : List ThreadInfo)
    (out : Option (List (GNode HeapThread))) (left : Multiset ℕ) : Prop :=
  ∃ threads, out = some threads ∧ left = threadsHeld threads ∧
    ThreadsPartOf (seenThreads threads) whole ∧ (Met grants → seenThreads threads = whole)

/-- A parser begins with nothing. -/
theorem owns_parseAll {parseLine : HeapThreads → CString → Owning (Option HeapThreads)}
    {parse : BacktraceState → CString → Option BacktraceState}
    (hline : ∀ s p p' line, HeapThreads.Reads grants s p → parse p line = some p' →
      Owns s.held (parseLine s line) (Continues grants p'))
    (hgrow : ∀ p p' line, parse p line = some p' → ThreadsPartOf p.result p'.result)
    {stream : List UInt8} {whole : List ThreadInfo}
    (hwhole : ((readLines stream).foldlM parse ⟨[], none⟩).map BacktraceState.result = some whole) :
    Owns 0 (do
      let out ← parseLinesIn grants parseLine (stream.length + 1) none stream ⟨[], none⟩
      pure (out.map HeapThreads.result)) (ListsThreads grants whole) := by
  obtain ⟨q, hq, rfl⟩ := Option.map_eq_some_iff.mp hwhole
  have hstart : (HeapThreads.mk [] none).Reads grants ⟨[], none⟩ :=
    ⟨⟨.nil, by simp [HeapThreads.seen]⟩, fun _ => rfl⟩
  have hcalls : (byteLines stream).length < stream.length + 1 :=
    Nat.lt_succ_of_le (length_byteLines_le stream)
  have hnothing : 0 = (((none : Option HeapLine).map HeapLine.block).toList : Multiset ℕ) +
      (HeapThreads.mk [] none).held := rfl
  rw [hnothing]
  refine (owns_parseLinesIn hline hgrow hcalls hstart hq).step fun out left hout => owns_pure ?_
  obtain ⟨s, rfl, rfl, hpart, hall⟩ := hout
  rw [seen_result] at hpart
  refine ⟨s.result, rfl, rfl, hpart, fun hmet => ?_⟩
  rw [← seen_result, hall hmet]

theorem owns_gdbOutputParseIn {input : List UInt8} {whole : List ThreadInfo}
    (hwhole : gdbOutputParse input = some whole) :
    Owns 0 (gdbOutputParseIn grants input) (ListsThreads grants whole) := by
  unfold gdbOutputParseIn
  exact @owns_parseAll grants _ gdbOutputLine (fun _ _ _ _ hs hp => owns_gdbOutputLineIn hs hp)
    (fun _ _ _ hp => threadsPartOf_gdbOutputLine hp) _ _ hwhole

theorem owns_backtraceParseIn {input : List UInt8} {whole : List ThreadInfo}
    (hwhole : backtraceParseBytes input = some whole) :
    Owns 0 (backtraceParseIn grants input) (ListsThreads grants whole) := by
  unfold backtraceParseIn
  exact @owns_parseAll grants _ backtraceLine (fun _ _ _ _ hs hp => owns_backtraceLineIn hs hp)
    (fun _ _ _ hp => threadsPartOf_backtraceLine hp) _ _ hwhole

/-- Some of the threads are shown, and nothing is held. -/
def ShowsThreads (grants : DumpGrants) (schema : Option StackdumpColorSchema)
    (whole : List ThreadInfo) (out : Option CString) (left : Multiset ℕ) : Prop :=
  left = 0 ∧ ∃ part, ThreadsPartOf part whole ∧ (Met grants → part = whole) ∧
    out = some (threadInfoListFormat (schema.getD stackdumpColorSchemaDefault) part)

theorem owns_showThreads {schema : Option StackdumpColorSchema} {whole : List ThreadInfo}
    {out : Option (List (GNode HeapThread))} {left : Multiset ℕ}
    (hout : ListsThreads grants whole out left) :
    Owns left (showThreads schema out) (ShowsThreads grants schema whole) := by
  obtain ⟨threads, rfl, rfl, hpart, hall⟩ := hout
  exact (owns_threadInfoListFree threads).step fun _ _ hleft =>
    owns_pure ⟨hleft, seenThreads threads, hpart, hall, rfl⟩

end Parsed

/-- **Highlighting gives back all its memory.** Whatever the requests come to, a highlighter shows
some of the threads that are in its input, each with some of its own frames, and then holds
nothing: each block was freed once. With all memory it shows all that there is. -/
theorem highlightFd_owns (grants : DumpGrants) (input : List UInt8)
    (schema : Option StackdumpColorSchema) (whole : List ThreadInfo) :
    (gdbOutputParse input = some whole →
      Owns 0 (gdbOutputHighlightFdIn grants input schema) (ShowsThreads grants schema whole)) ∧
    (backtraceParseBytes input = some whole →
      Owns 0 (backtraceHighlightFdIn grants input schema) (ShowsThreads grants schema whole)) :=
  ⟨fun hwhole => (owns_gdbOutputParseIn hwhole).step fun _ _ hout => owns_showThreads hout,
    fun hwhole => (owns_backtraceParseIn hwhole).step fun _ _ hout => owns_showThreads hout⟩

/-- Two threads, where there is no memory for the raw line of a frame. -/
theorem highlightFd_owns_noRawLine :
    Owns 0 (gdbOutputHighlightFdIn (fun site _ => site ≠ .rawLine)
        (bytesOf (cstr "Thread 7 (LWP 8)\n#0 f\n")) none)
      (ShowsThreads (fun site _ => site ≠ .rawLine) none
        [⟨7, [], 8, [⟨0, none, some (cstr "f\n"), none, none, 0, cstr "#0 f\n"⟩]⟩]) ∧
    Owns 0 (backtraceHighlightFdIn (fun site _ => site ≠ .rawLine)
        (bytesOf (cstr "=== Thread ===\n#0 f\n")) none)
      (ShowsThreads (fun site _ => site ≠ .rawLine) none
        [⟨0, cstr "current", 0,
          [⟨0, none, some (cstr "f\n"), none, none, 0, cstr "#0 f\n"⟩]⟩]) :=
  ⟨(highlightFd_owns _ _ _ _).1 (by decide +kernel),
    (highlightFd_owns _ _ _ _).2 (by decide +kernel)⟩

end BasC
