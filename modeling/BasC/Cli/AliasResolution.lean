/-
# Following first tokens

The alias loop looks a name up, expands it, and goes on with the first token of what the
argument parser makes of the expanded text. This module gives that walk without the
vector and the trace, and derives from it how a statement comes out of the loop: with an
error report when every name was an alias, and else with a name that is none.

A run that stores outside `cmd_argv` does not come out at all, so everything here is about
runs that get to their end.
-/

import BasC.Cli.ArgvBounds
import BasC.Cli.Statements

namespace BasC

open CChar Lib Traced

variable {σ : Type}

/-- The alias of a name, and the world that the lookup leaves. -/
def aliasOf (parser : Parser σ) (name : CString) (world : World σ) : Option CString × World σ :=
  match parser.aliasResolver, world.aliasMap with
  | some resolver, none => resolver name world
  | _, some map => (map.get name, world)
  | none, none => (none, world)

/-- With an internal map, a lookup reads it and changes nothing. -/
theorem aliasOf_of_map {parser : Parser σ} {name : CString} {world : World σ}
    {map : PrefixMap CString} (hmap : world.aliasMap = some map) :
    aliasOf parser name world = (map.get name, world) := by
  unfold aliasOf
  rw [hmap]
  cases parser.aliasResolver <;> rfl

/-- A place of the walk: the name that is looked up next, the words of the last parse, and
the world. -/
structure Following (σ : Type) where
  name : CString
  words : List CString
  world : World σ

/-- What the argument parser makes of the argument text, if there is one. -/
def argumentsOf (parser : Parser σ) : Option CString → World σ → ArgsOut × World σ
  | none, world => (.initial, world)
  | some text, world => parser.argsParser text world

/-- The walk starts at the command name when the arguments can be parsed. -/
def startFollowing (parser : Parser σ) (cmdName : CString) (args : Option CString)
    (world : World σ) : Option (Following σ) :=
  let (out, world) := argumentsOf parser args world
  if out.ret ≠ 0 then none else some ⟨cmdName, out.strings, world⟩

/-- The buffers of the source, and a command name of any length. -/
def namesInFull : Limits
  | .cmdName => none
  | buffer => Limits.source buffer

/-- The place of the first token, when a text was parsed and has one. -/
def firstToken (limits : Limits) (out : ArgsOut) (world : World σ) : Option (Following σ) :=
  if out.ret ≠ 0 then none
  else out.strings.head?.map fun first => ⟨limits.fit .cmdName first, out.strings, world⟩

/-- The place behind the expansion of an alias. -/
def followValue (limits : Limits) (parser : Parser σ) (value : CString) (words : List CString)
    (world : World σ) : Option (Following σ) :=
  let (out, world) := parser.argsParser (expandedCmd limits value words) world
  firstToken limits out world

/-- One step of the walk, from a name that is an alias. -/
def follow (limits : Limits) (parser : Parser σ) (place : Following σ) : Option (Following σ) :=
  let (found, world) := aliasOf parser place.name place.world
  found.bind fun value => followValue limits parser value place.words world

/-- The names at the next places of the walk, as far as it goes, are aliases. -/
def staysAliased (limits : Limits) (parser : Parser σ) : ℕ → Following σ → Bool
  | 0, _ => true
  | left + 1, place =>
      (aliasOf parser place.name place.world).1.isSome &&
        (follow limits parser place).all fun next => staysAliased limits parser left next

/-- The place of the walk after a number of steps. -/
def followed (limits : Limits) (parser : Parser σ) : ℕ → Following σ → Option (Following σ)
  | 0, place => some place
  | count + 1, place => (follow limits parser place).bind (followed limits parser count)

theorem expandedCmd_namesInFull (value : CString) (words : List CString) :
    expandedCmd namesInFull value words = expandedCmd .source value words := by
  rw [expandedCmd_eq, expandedCmd_eq]
  rfl

/-- A first token that fits the name buffer is the same in full. -/
theorem firstToken_source_of_fits {out : ArgsOut} {world : World σ}
    (hfits : ∀ next, firstToken namesInFull out world = some next →
      next.name.length < Buffer.cmdName.size) :
    firstToken .source out world = firstToken namesInFull out world := by
  unfold firstToken at *
  split
  · rfl
  · rename_i hret
    rw [if_neg hret] at hfits
    cases hfirst : out.strings.head? with
    | none => rfl
    | some first =>
        rw [hfirst, Option.map_some] at hfits
        have hname : Limits.source.fit .cmdName first = first :=
          source_fit_eq_self (hfits _ rfl)
        rw [Option.map_some, Option.map_some, hname]
        rfl

theorem follow_source_of_fits {parser : Parser σ} {place : Following σ}
    (hfits : ∀ next, follow namesInFull parser place = some next →
      next.name.length < Buffer.cmdName.size) :
    follow .source parser place = follow namesInFull parser place := by
  unfold follow followValue at *
  simp only [expandedCmd_namesInFull] at hfits ⊢
  cases hfound : (aliasOf parser place.name place.world).1 with
  | none => rfl
  | some value =>
      rw [hfound] at hfits
      exact firstToken_source_of_fits hfits

/-- A walk that meets only aliases also does by names cut to the size of the buffer, when all of
them fit it. -/
theorem staysAliased_source_of_fits {parser : Parser σ} {place : Following σ} {left : ℕ}
    (hfits : ∀ count next, followed namesInFull parser count place = some next →
      next.name.length < Buffer.cmdName.size)
    (hstays : staysAliased namesInFull parser left place = true) :
    staysAliased .source parser left place = true := by
  induction left generalizing place with
  | zero => rfl
  | succ left ih =>
      have hnext : ∀ next, follow namesInFull parser place = some next →
          next.name.length < Buffer.cmdName.size := by
        intro next hnext
        apply hfits 1
        rw [followed, hnext]
        rfl
      rw [staysAliased, Bool.and_eq_true] at hstays ⊢
      refine ⟨hstays.1, ?_⟩
      rw [follow_source_of_fits hnext]
      cases hfollow : follow namesInFull parser place with
      | none => rfl
      | some next =>
          rw [hfollow] at hstays
          refine ih (fun count last hlast => hfits (count + 1) last ?_) hstays.2
          rw [followed, hfollow]
          exact hlast

/-- In a set of places that the walk does not leave there are only aliases. -/
theorem staysAliased_of_closed {limits : Limits} {parser : Parser σ} {places : Set (Following σ)}
    (halias : ∀ place ∈ places, (aliasOf parser place.name place.world).1.isSome = true)
    (hclosed : ∀ place ∈ places, ∀ next, follow limits parser place = some next → next ∈ places)
    {place : Following σ} (hplace : place ∈ places) (left : ℕ) :
    staysAliased limits parser left place = true := by
  induction left generalizing place with
  | zero => rfl
  | succ left ih =>
      rw [staysAliased, halias place hplace, Bool.true_and]
      cases hfollow : follow limits parser place with
      | none => rfl
      | some next => exact ih (hclosed place hplace next hfollow)

/-- The argument parser is called for the text of an expanded alias. -/
def Event.isExpansion : Event → Bool
  | .parsed .expandedAlias _ _ => true
  | _ => false

/-- The number of alias expansions that a run makes. -/
def expansions (events : List Event) : ℕ := events.countP Event.isExpansion

theorem expansions_append (first second : List Event) :
    expansions (first ++ second) = expansions first + expansions second :=
  List.countP_append

theorem expansions_eq_zero {events : List Event} (hnone : ∀ e ∈ events, e.isExpansion = false) :
    expansions events = 0 :=
  List.countP_eq_zero.mpr fun e he => Bool.eq_false_iff.mp (hnone e he)

theorem startCommand_unexpanded (parser : Parser σ) (cmdName : CString) (args : Option CString) :
    (startCommand parser cmdName args).Leaves fun events =>
      ∀ e ∈ events, e.isExpansion = false := by
  have hR := sequential_forall (σ := σ) fun e => e.isExpansion = false
  refine hR.bind ?_ fun out => ?_
  · cases args with
    | none => exact hR.pure _
    | some text => exact fun _ => List.forall_mem_singleton.mpr rfl
  · exact sequential_fillCommand hR (fun _ => emit_forall rfl) (assign_forall fun _ => rfl) parser
      cmdName out

theorem dispatch_unexpanded (parser : Parser σ) (command : Command) (redir : Redirection) :
    (dispatch parser command redir).Leaves fun events => ∀ e ∈ events, e.isExpansion = false :=
  sequential_dispatch (sequential_forall _) (fun _ => emit_forall rfl) (fun _ => emit_forall rfl)
    fun _ => emit_forall rfl

theorem atMost_expandAlias (limits : Limits) (parser : Parser σ) (value : CString)
    (st : Expanding) : AtMost Event.isExpansion 1 (expandAlias limits parser value st) := by
  have hcopy : AtMost Event.isExpansion 0
      (emit (.copied .expandedCmd (aliasText value st.parsedArgv)) : Cli σ PUnit) :=
    fun _ => Nat.le_refl 0
  have hparse : AtMost Event.isExpansion 1
      (parseArgs parser .expandedAlias (expandedCmd limits value st.parsedArgv)) :=
    fun _ => Nat.le_refl 1
  have hrebuild : ∀ out, AtMost Event.isExpansion 0 (rebuildCommand limits parser out) :=
    fun out => (sequential_rebuildCommand (sequential_forall _) (fun _ _ => emit_forall rfl)
      (fun _ => emit_forall rfl) (assign_forall fun _ => rfl) limits parser out).atMost
  exact atMost_bind hcopy fun _ => atMost_bind hparse hrebuild

/-- **The alias loop expands at most as often as it may.** -/
theorem atMost_expandAliases (limits : Limits) (parser : Parser σ) (left : ℕ) (st : Expanding) :
    AtMost Event.isExpansion left (expandAliases limits parser left st) := by
  induction left generalizing st with
  | zero =>
      have hR := sequential_forall (σ := σ) fun e => e.isExpansion = false
      exact (hR.bind (sequential_emitError hR (fun _ => emit_forall rfl) parser _)
        fun _ => hR.pure (none : Option Command)).atMost
  | succ left ih =>
      have hlookup : AtMost Event.isExpansion 0 (lookupAlias parser st.command.cmdName) :=
        (sequential_lookupAlias (sequential_forall _) parser _).atMost
      have hbody : AtMost Event.isExpansion (0 + (1 + left))
          (expandAliases limits parser (left + 1) st) := by
        refine atMost_bind hlookup fun found => ?_
        cases found with
        | none => exact atMost_pure _ _ _
        | some value =>
            refine atMost_bind (atMost_expandAlias limits parser value st) fun next => ?_
            cases next with
            | none => exact atMost_pure _ _ _
            | some next => exact ih next
      exact hbody.mono (by omega)

theorem atMost_resolveCommand (limits : Limits) (parser : Parser σ)
    (parts : CString × Option CString × Redirection) :
    AtMost Event.isExpansion maxAliasExpansions (resolveCommand limits parser parts) := by
  unfold resolveCommand
  show AtMost Event.isExpansion (0 + (maxAliasExpansions + 0)) _
  refine atMost_bind (startCommand_unexpanded parser _ _).atMost fun started => ?_
  cases started with
  | none => exact atMost_pure _ _ _
  | some st =>
      refine atMost_bind (atMost_expandAliases limits parser _ st) fun command => ?_
      cases command with
      | none => exact atMost_pure _ _ _
      | some command => exact atMost_pure _ _ _

/-- The calls of the argument parser are seen from outside. -/
theorem isInternal_of_isExpansion (e : Event) (hexpansion : e.isExpansion = true) :
    e.isInternal = false := by
  cases e <;> first | rfl | cases hexpansion

theorem atMost_prepareStatement (limits : Limits) (parser : Parser σ) (statement : CString) :
    AtMost Event.isExpansion maxAliasExpansions (prepareStatement limits parser statement) := by
  refine (atMost_hide_iff isInternal_of_isExpansion).mp ?_
  show AtMost _ _ (observed (prepareStatement limits parser statement))
  rw [observed_prepareStatement]
  cases readStatement limits statement with
  | none => exact atMost_pure _ _ _
  | some parts =>
      exact (atMost_hide_iff isInternal_of_isExpansion).mpr
        (atMost_resolveCommand limits parser parts)

/-! ## How the pieces come out -/

/-- An error is reported. -/
def Reports (events : List Event) : Prop := ∃ message, Event.error message ∈ events

theorem Reports.prepend {rest : List Event} (hrest : Reports rest) (events : List Event) :
    Reports (events ++ rest) := by
  obtain ⟨message, hmem⟩ := hrest
  exact ⟨message, List.mem_append_right events hmem⟩

/-- A piece comes out at a place of the walk, or with an error report when there is none. -/
def ArrivesAt (place : Option (Following σ)) (events : List Event) (out : Option Expanding)
    (world : World σ) : Prop :=
  (out = none ∧ Reports events ∧ place = none) ∨
    ∃ st, out = some st ∧ place = some ⟨st.command.cmdName, st.parsedArgv, world⟩

theorem ArrivesAt.prepend {place : Option (Following σ)} {rest : List Event}
    {out : Option Expanding} {world : World σ} (hrest : ArrivesAt place rest out world)
    (events : List Event) : ArrivesAt place (events ++ rest) out world := by
  rcases hrest with ⟨hout, hreports, hplace⟩ | harrives
  · exact .inl ⟨hout, hreports.prepend events, hplace⟩
  · exact .inr harrives

theorem ensures_emitError_pure {α : Type} (parser : Parser σ) (message : CString) (value : α)
    (world : World σ) :
    (do emitError parser message; pure value).Ensures world fun events out _ =>
      Reports events ∧ out = value := by
  have hreports : (emitError parser message).Ensures world fun events _ _ =>
      events = [.error message] := fun _ _ _ => trace_emitError parser message world
  refine ensures_bind hreports ?_
  rintro events _ world' rfl
  exact ensures_pure ⟨⟨message, by simp⟩, rfl⟩

theorem ensures_assign (stores : List Store) (world : World σ) :
    (assign stores : Cli σ PUnit).Ensures world fun _ _ world' => world' = world := by
  intro _ world' hresult
  rw [result_assign] at hresult
  split at hresult
  · exact (congrArg Prod.snd (Option.some.inj hresult)).symm
  · cases hresult

theorem ensures_copyInto (limits : Limits) (buffer : Buffer) (text : CString) (world : World σ) :
    (copyInto limits buffer text).Ensures world fun events out world' =>
      events = [.copied buffer text] ∧ limits.fit buffer text = out ∧ world = world' := by
  intro out world' hresult
  exact ⟨rfl, Prod.mk.inj (Option.some.inj hresult)⟩

theorem ensures_parseArgs (parser : Parser σ) (site : ParseSite) (text : CString)
    (world : World σ) :
    (parseArgs parser site text).Ensures world fun _ out world' =>
      parser.argsParser text world = (out, world') := by
  intro out world' hresult
  exact Option.some.inj hresult

theorem ensures_fillCommand (parser : Parser σ) (cmdName : CString) (out : ArgsOut)
    (world : World σ) :
    (fillCommand parser cmdName out).Ensures world
      (ArrivesAt (if out.ret ≠ 0 then none else some ⟨cmdName, out.strings, world⟩)) := by
  unfold fillCommand
  by_cases hret : out.ret ≠ 0
  · rw [if_pos hret, if_pos hret]
    exact (ensures_emitError_pure parser _ none world).mono fun events out _ hout =>
      .inl ⟨hout.2, hout.1, rfl⟩
  · rw [if_neg hret, if_neg hret]
    refine ensures_bind (ensures_assign _ world) ?_
    rintro events _ _ rfl
    exact ensures_pure (.inr ⟨_, rfl, rfl⟩)

/-- The first fill comes out where the walk starts. -/
theorem ensures_startCommand (parser : Parser σ) (cmdName : CString) (args : Option CString)
    (world : World σ) :
    (startCommand parser cmdName args).Ensures world
      (ArrivesAt (startFollowing parser cmdName args world)) := by
  have hparse : (parseArguments parser args).Ensures world fun _ out world' =>
      argumentsOf parser args world = (out, world') := by
    cases args with
    | none => exact ensures_pure rfl
    | some text => exact ensures_parseArgs parser .arguments text world
  refine ensures_bind hparse fun events out world' hout => ?_
  have hstart : startFollowing parser cmdName args world =
      if out.ret ≠ 0 then none else some ⟨cmdName, out.strings, world'⟩ := by
    unfold startFollowing
    rw [hout]
  rw [hstart]
  exact (ensures_fillCommand parser cmdName out world').mono fun _ _ _ hfill =>
    hfill.prepend events

theorem ensures_rebuildCommand (limits : Limits) (parser : Parser σ) (out : ArgsOut)
    (world : World σ) :
    (rebuildCommand limits parser out).Ensures world
      (ArrivesAt (firstToken limits out world)) := by
  unfold rebuildCommand firstToken
  by_cases hret : out.ret ≠ 0
  · rw [if_pos hret, if_pos hret]
    exact (ensures_emitError_pure parser _ none world).mono fun events out _ hout =>
      .inl ⟨hout.2, hout.1, rfl⟩
  · rw [if_neg hret, if_neg hret]
    cases hstrings : out.strings with
    | nil =>
        exact (ensures_emitError_pure parser _ none world).mono fun events out _ hout =>
          .inl ⟨hout.2, hout.1, rfl⟩
    | cons first rest =>
        refine ensures_bind (ensures_copyInto limits .cmdName first world) ?_
        rintro _ _ _ ⟨rfl, rfl, rfl⟩
        refine ensures_bind (ensures_assign _ world) ?_
        rintro events _ _ rfl
        exact ensures_pure (.inr ⟨_, rfl, rfl⟩)

/-- One expansion comes out at the next place of the walk. -/
theorem ensures_expandAlias (limits : Limits) (parser : Parser σ) (value : CString)
    (st : Expanding) (world : World σ) :
    (expandAlias limits parser value st).Ensures world
      (ArrivesAt (followValue limits parser value st.parsedArgv world)) := by
  refine ensures_bind (ensures_emit _ world) ?_
  rintro copies _ _ ⟨rfl, rfl⟩
  refine ensures_bind (ensures_parseArgs parser .expandedAlias _ world) ?_
  intro events out world' hout
  have hplace : followValue limits parser value st.parsedArgv world =
      firstToken limits out world' := by
    unfold followValue
    rw [hout]
  rw [hplace]
  exact (ensures_rebuildCommand limits parser out world').mono fun _ _ _ hrebuild =>
    (hrebuild.prepend events).prepend _

/-- The last lookup, which left this world, was of the name and found no alias. -/
def NoAlias (parser : Parser σ) (name : CString) (world : World σ) : Prop :=
  ∃ before, aliasOf parser name before = (none, world)

theorem ensures_lookupAlias (parser : Parser σ) (name : CString) (world : World σ) :
    (lookupAlias parser name).Ensures world fun events found world' =>
      events = [] ∧ aliasOf parser name world = (found, world') := by
  have hresult : (lookupAlias parser name).result world = some (aliasOf parser name world) := by
    unfold lookupAlias aliasOf
    rw [result_bind_of_eq (result_current world)]
    cases parser.aliasResolver <;> cases world.aliasMap <;> rfl
  have htrace : (lookupAlias parser name).trace world = [] := by
    unfold lookupAlias
    rw [trace_bind_of_eq (result_current world)]
    cases parser.aliasResolver <;> cases world.aliasMap <;> rfl
  intro found world' hfound
  rw [hresult] at hfound
  exact ⟨htrace, Option.some.inj hfound⟩

/-- How the alias loop comes out: with an error report when the next names are all aliases,
and else with a name that is none, after fewer expansions than it may make. -/
def Resolves (limits : Limits) (parser : Parser σ) (left : ℕ) (place : Following σ)
    (events : List Event) (out : Option Command) (world : World σ) : Prop :=
  (out = none ∧ Reports events ∧ staysAliased limits parser left place = true) ∨
    ∃ command, out = some command ∧ expansions events < left ∧
      NoAlias parser command.cmdName world ∧ staysAliased limits parser left place = false

/-- **The alias loop** comes out as the walk says. -/
theorem ensures_expandAliases (limits : Limits) (parser : Parser σ) (left : ℕ) (st : Expanding)
    (world : World σ) :
    (expandAliases limits parser left st).Ensures world
      (Resolves limits parser left ⟨st.command.cmdName, st.parsedArgv, world⟩) := by
  induction left generalizing st world with
  | zero =>
      exact (ensures_emitError_pure parser _ none world).mono fun events out _ hout =>
        .inl ⟨hout.2, hout.1, rfl⟩
  | succ left ih =>
      refine ensures_bind (ensures_lookupAlias parser _ world) ?_
      rintro _ found world' ⟨rfl, hlookup⟩
      cases found with
      | none =>
          refine ensures_pure (.inr ⟨st.command, rfl, Nat.succ_pos left, ⟨world, hlookup⟩, ?_⟩)
          rw [staysAliased, hlookup]
          rfl
      | some value =>
          have hfollow : follow limits parser ⟨st.command.cmdName, st.parsedArgv, world⟩ =
              followValue limits parser value st.parsedArgv world' := by
            unfold follow
            rw [hlookup]
            rfl
          have hstays : staysAliased limits parser (left + 1)
              ⟨st.command.cmdName, st.parsedArgv, world⟩ =
                (followValue limits parser value st.parsedArgv world').all fun next =>
                  staysAliased limits parser left next := by
            rw [staysAliased, hlookup, hfollow, Option.isSome_some, Bool.true_and]
          have hcount : (expandAlias limits parser value st).Ensures world' fun events _ _ =>
              expansions events ≤ 1 := fun _ _ _ => atMost_expandAlias limits parser value st world'
          refine ensures_bind ((ensures_expandAlias limits parser value st world').and hcount) ?_
          rintro events next world'' ⟨⟨rfl, hreports, hplace⟩ | ⟨next, rfl, hplace⟩, hone⟩
          · refine ensures_pure (.inl ⟨rfl, ?_, ?_⟩)
            · rw [List.nil_append, List.append_nil]
              exact hreports
            · rw [hstays, hplace]
              rfl
          · refine (ih next world'').mono fun rest out last hrest => ?_
            rw [hplace, Option.all_some] at hstays
            unfold Resolves
            rw [hstays, List.nil_append]
            rcases hrest with ⟨hout, hreports, hrest⟩ | ⟨command, hout, hless, hnone, hrest⟩
            · exact .inl ⟨hout, hreports.prepend events, hrest⟩
            · refine .inr ⟨command, hout, ?_, hnone, hrest⟩
              rw [expansions_append]
              omega

/-- The first names of the walk of a command are aliases, or its arguments cannot be
parsed. -/
def resolvesToNothing (limits : Limits) (parser : Parser σ)
    (parts : CString × Option CString × Redirection) (world : World σ) : Bool :=
  (startFollowing parser parts.1 parts.2.1 world).all fun place =>
    staysAliased limits parser maxAliasExpansions place

/-- How a command comes out of the alias loop: with an error report when it resolves to
nothing, and else with a name that is no alias. -/
def CommandResolves (limits : Limits) (parser : Parser σ)
    (parts : CString × Option CString × Redirection) (start : World σ)
    (events : List Event) (out : Prepared) (world : World σ) : Prop :=
  (out = .ends (-1) ∧ Reports events ∧ resolvesToNothing limits parser parts start = true) ∨
    ∃ command, out = .ready command parts.2.2 ∧ expansions events < maxAliasExpansions ∧
      NoAlias parser command.cmdName world ∧
      resolvesToNothing limits parser parts start = false

theorem ensures_resolveCommand (limits : Limits) (parser : Parser σ)
    (parts : CString × Option CString × Redirection) (world : World σ) :
    (resolveCommand limits parser parts).Ensures world
      (CommandResolves limits parser parts world) := by
  obtain ⟨cmdName, args, redir⟩ := parts
  unfold resolveCommand
  refine ensures_bind ((ensures_startCommand parser cmdName args world).and
    ((startCommand_unexpanded parser cmdName args).ensures world)) ?_
  rintro events started world' ⟨⟨rfl, hreports, hplace⟩ | ⟨st, rfl, hplace⟩, hunexpanded⟩
  · have hnothing : resolvesToNothing limits parser (cmdName, args, redir) world = true := by
      unfold resolvesToNothing
      rw [hplace]
      rfl
    refine ensures_pure (.inl ⟨rfl, ?_, hnothing⟩)
    rwa [List.append_nil]
  · have hwalk : resolvesToNothing limits parser (cmdName, args, redir) world =
        staysAliased limits parser maxAliasExpansions
          ⟨st.command.cmdName, st.parsedArgv, world'⟩ := by
      unfold resolvesToNothing
      rw [hplace]
      rfl
    refine ensures_bind (ensures_expandAliases limits parser maxAliasExpansions st world') ?_
    rintro loop _ last (⟨rfl, hreports, hstays⟩ | ⟨command, rfl, hless, hnone, hleaves⟩)
    · refine ensures_pure (.inl ⟨rfl, ?_, hwalk.trans hstays⟩)
      rw [List.append_nil]
      exact hreports.prepend _
    · refine ensures_pure (.inr ⟨command, rfl, ?_, hnone, hwalk.trans hleaves⟩)
      rwa [List.append_nil, expansions_append, expansions_eq_zero hunexpanded, Nat.zero_add]

/-- How a statement comes to its handlers: not at all without a command name, and else the
way its command resolves. -/
def Prepares (limits : Limits) (parser : Parser σ) (statement : CString) (start : World σ)
    (events : List Event) (out : Prepared) (world : World σ) : Prop :=
  (readStatement limits statement = none ∧ out = .ends 0) ∨
    ∃ parts, readStatement limits statement = some parts ∧
      CommandResolves limits parser parts start events out world

/-- What happens inside the parser does not matter to it. -/
theorem commandResolves_observed_iff {limits : Limits} {parser : Parser σ}
    {parts : CString × Option CString × Redirection} {start : World σ} (events : List Event)
    (out : Prepared) (world : World σ) :
    CommandResolves limits parser parts start (events.filter fun e => !e.isInternal) out world ↔
      CommandResolves limits parser parts start events out world := by
  have hreports : Reports (events.filter fun e => !e.isInternal) ↔ Reports events := by
    simp [Reports, Event.isInternal]
  have hexpansions : expansions (events.filter fun e => !e.isInternal) = expansions events :=
    countP_filter_not_hidden isInternal_of_isExpansion events
  unfold CommandResolves
  rw [hreports, hexpansions]

theorem ensures_prepareStatement (limits : Limits) (parser : Parser σ) (statement : CString)
    (world : World σ) :
    (prepareStatement limits parser statement).Ensures world
      (Prepares limits parser statement world) := by
  have hobserved : (observed (prepareStatement limits parser statement)).Ensures world
      (Prepares limits parser statement world) := by
    rw [observed_prepareStatement]
    cases hread : readStatement limits statement with
    | none => exact ensures_pure (.inl ⟨hread, rfl⟩)
    | some parts =>
        have hresolve := (ensures_hide_iff commandResolves_observed_iff).mpr
          (ensures_resolveCommand limits parser parts world)
        exact hresolve.mono fun events out last hout => .inr ⟨parts, hread, hout⟩
  refine (ensures_hide_iff fun events out last => ?_).mp hobserved
  unfold Prepares
  simp only [commandResolves_observed_iff]

end BasC
