/-
# Joining strings in a buffer

`string_list_join` and `wstring_list_join` with their two passes: the first one adds up
`total_len`, the second one writes the strings and separators into a buffer of that many
units, one file with `strcat` and the other with an index of its own.
-/

import BasC.Base.TextListSequence
import BasC.Lib.TextBuffer

namespace BasC

open Lib

namespace TextCode

open ListCode

variable {t : TextCode}

/-- The loop over the items: `total_len` with what they add to it. -/
def addLengths : ℕ → List (Option (List t.Unit)) → ℕ
  | totalLen, [] => totalLen
  | totalLen, none :: names => addLengths totalLen names
  | totalLen, some text :: names => addLengths ((totalLen + text.length) % sizeMod) names

/-- `total_len`, a `size_t`. -/
def totalLen (names : List (Option (List t.Unit))) (separator : List t.Unit) : ℕ :=
  let items := addLengths 0 names
  let separated := (items + separator.length * (names.length - 1) % sizeMod) % sizeMod
  (separated + 1) % sizeMod

theorem addLengths_mod (total : ℕ) (names : List (Option (List t.Unit))) :
    addLengths total names % sizeMod =
      (total + (names.map fun name => (name.getD []).length).sum) % sizeMod := by
  induction names generalizing total with
  | nil => rfl
  | cons name names ih =>
      cases name with
      | none =>
          rw [addLengths, ih, List.map_cons, List.sum_cons, Option.getD_none, List.length_nil,
            Nat.zero_add]
      | some text =>
          rw [addLengths, ih, Nat.mod_add_mod, List.map_cons, List.sum_cons, Option.getD_some,
            Nat.add_assoc]

/-- The first pass counts the units, up to a wrap. -/
theorem totalLen_eq (names : List (Option (List t.Unit))) (separator : List t.Unit) :
    totalLen names separator = t.unitCount names separator % sizeMod := by
  have hitems := addLengths_mod 0 names
  rw [totalLen, unitCount]
  generalize addLengths 0 names = items at hitems
  generalize separator.length * (names.length - 1) = separators
  unfold sizeMod at *
  omega

/-- The loop over the items from the index on; `emit` puts a text behind what is written. A
separator is put in front of an item unless it is the first one or the separator is empty. -/
def writeItems {State : Type} (emit : List t.Unit → State → Option State)
    (separator : List t.Unit) : ℕ → List (Option (List t.Unit)) → State → Option State
  | _, [], state => some state
  | i, none :: names, state => writeItems emit separator (i + 1) names state
  | i, some text :: names, state =>
      (if 0 < i ∧ 0 < separator.length then emit separator state else some state).bind
        fun state => (emit text state).bind (writeItems emit separator (i + 1) names)

/-- A second pass: what it makes of the buffer with the strings and the separator. -/
abbrev Pass (t : TextCode) :=
  List (Option (List t.Unit)) → List t.Unit → List (Option t.Unit) →
    Option (List (Option t.Unit))

/-- The second pass of `string_list_join`. -/
def catPass : Pass t := fun names separator result =>
  (putCell result 0 none).bind (writeItems catText separator 0 names)

/-- The loop of `wstring_list_join` that copies a text to `result[pos++]`. -/
def copyText (text : List t.Unit) (state : ℕ × List (Option t.Unit)) :
    Option (ℕ × List (Option t.Unit)) :=
  putCells (text.map some) state.1 state.2

/-- The second pass of `wstring_list_join`. -/
def copyPass : Pass t := fun names separator result =>
  (writeItems copyText separator 0 names (0, result)).bind fun state =>
    putCell state.2 state.1 none

/-- The text and its NUL at the beginning of the buffer, if they fit into it. -/
def fill (text : List t.Unit) (result : List (Option t.Unit)) : Option (List (Option t.Unit)) :=
  if text.length < result.length then
    some (terminated text ++ result.drop (text.length + 1))
  else none

/-- The pass writes the joined strings. -/
def Fills (pass : Pass t) : Prop :=
  ∀ names separator result,
    pass names separator result = fill (t.joinNames separator names) result

/-- The step puts the text behind what is written if there is room for it. -/
def Appends {State : Type} (shape : List t.Unit → List (Option t.Unit) → State)
    (step : State → Option State) (text : List t.Unit) : Prop :=
  ∀ written rest, step (shape written rest) =
    if text.length ≤ rest.length then some (shape (written ++ text) (rest.drop text.length))
    else none

section Appends

variable {State : Type} {shape : List t.Unit → List (Option t.Unit) → State}
  {emit : List t.Unit → State → Option State}

theorem appends_nil : Appends shape some [] := by
  intro written rest
  rw [List.length_nil, if_pos (Nat.zero_le _), List.append_nil, List.drop_zero]

/-- One step after another. -/
theorem Appends.bind {step next : State → Option State} {text more : List t.Unit}
    (hstep : Appends shape step text) (hnext : Appends shape next more) :
    Appends shape (fun state => (step state).bind next) (text ++ more) := by
  intro written rest
  dsimp only
  rw [hstep written rest, List.length_append]
  split_ifs with htext hboth hboth
  · rw [Option.bind_some, hnext, List.length_drop, if_pos (by omega), List.append_assoc,
      List.drop_drop]
  · rw [Option.bind_some, hnext, List.length_drop, if_neg (by omega)]
  · omega
  · rfl

/-- Behind the first item, the loop appends each string with a separator. -/
theorem appends_writeItems (hemit : ∀ text, Appends shape (emit text) text)
    (separator : List t.Unit) (i : ℕ) (names : List (Option (List t.Unit))) :
    Appends shape (writeItems emit separator (i + 1) names) (t.joinRest separator names) := by
  induction names generalizing i with
  | nil => exact appends_nil
  | cons name names ih =>
      cases name with
      | none => exact ih (i + 1)
      | some text =>
          have hitem := (hemit text).bind (ih (i + 1))
          have hrest : t.joinRest separator (some text :: names) =
              separator ++ (text ++ t.joinRest separator names) :=
            List.append_assoc separator text (t.joinRest separator names)
          rw [hrest]
          by_cases hempty : separator = []
          · subst hempty
            intro written rest
            rw [writeItems, if_neg (by simp), List.nil_append]
            exact hitem written rest
          · intro written rest
            rw [writeItems, if_pos ⟨Nat.succ_pos i, List.length_pos_iff.mpr hempty⟩]
            exact (hemit separator).bind hitem written rest

/-- The loop appends the joined strings. -/
theorem appends_joinNames (hemit : ∀ text, Appends shape (emit text) text)
    (separator : List t.Unit) (names : List (Option (List t.Unit))) :
    Appends shape (writeItems emit separator 0 names) (t.joinNames separator names) := by
  cases names with
  | nil => exact appends_nil
  | cons name names =>
      cases name with
      | none => exact appends_writeItems hemit separator 0 names
      | some text =>
          intro written rest
          rw [writeItems, if_neg (by simp)]
          exact (hemit text).bind (appends_writeItems hemit separator 0 names) written rest

end Appends

/-- The buffer of `string_list_join`: what is written is a string. -/
def catShape (written : List t.Unit) (rest : List (Option t.Unit)) : List (Option t.Unit) :=
  written.map some ++ none :: rest

/-- The state of `wstring_list_join`: `pos` is behind what is written. -/
def copyShape (written : List t.Unit) (rest : List (Option t.Unit)) :
    ℕ × List (Option t.Unit) :=
  ((written.map some).length, written.map some ++ rest)

theorem appends_catText (text : List t.Unit) :
    Appends (t := t) catShape (catText text) text :=
  fun written rest => catText_append written text rest

theorem appends_copyText (text : List t.Unit) :
    Appends (t := t) copyShape (copyText text) text := by
  intro written rest
  rw [copyText, copyShape, putCells_append, List.length_map, ← List.map_append]
  rfl

theorem fills_catPass : Fills (t := t) catPass := by
  intro names separator result
  cases result with
  | nil => rfl
  | cons old rest =>
      rw [catPass, fill, show putCell (old :: rest) 0 none = some (catShape [] rest) from
        putCell_append [] old none rest, Option.bind_some,
        appends_joinNames appends_catText separator names [] rest, List.length_cons,
        List.drop_succ_cons, List.nil_append]
      simp only [Nat.lt_succ_iff]
      rw [catShape, terminated, List.append_assoc]
      rfl

theorem fills_copyPass : Fills (t := t) copyPass := by
  intro names separator result
  rw [copyPass, show ((0, result) : ℕ × List (Option t.Unit)) = copyShape [] result from rfl,
    appends_joinNames appends_copyText separator names [] result, List.nil_append, fill]
  generalize t.joinNames separator names = text
  obtain hroom | hroom := Nat.lt_or_ge text.length result.length
  · have hdrop := List.drop_eq_getElem_cons hroom
    rw [if_pos hroom.le, if_pos hroom, Option.bind_some, copyShape, hdrop, putCell_append,
      terminated, List.append_assoc]
    rfl
  · rw [if_neg (Nat.not_lt.mpr hroom)]
    split_ifs with hfull
    · have hdrop : result.drop text.length = [] := List.drop_eq_nil_of_le hroom
      rw [Option.bind_some, copyShape, hdrop, List.append_nil, putCell_end]
    · rfl

/-- What `malloc` returns for `total_len` units, with any contents. -/
def mallocUnits (totalLen : ℕ) (contents : ℕ → Option t.Unit) : List (Option t.Unit) :=
  (List.range (totalLen * t.unitSize % sizeMod / t.unitSize)).map contents

/-- A join with its two passes: the buffer that it returns, or `NULL`. A list without items has
a buffer for the NUL alone. -/
def joinBuffer (pass : Pass t) (list : t.list.Items) (separator : Option (List t.Unit))
    (malloc : Bool) (contents : ℕ → Option t.Unit) : Option (Option (List (Option t.Unit))) :=
  if list.count = 0 then some (if malloc then some (terminated []) else none)
  else
    (t.list.names list).bind fun names =>
      let separator := separator.getD []
      if malloc then
        (pass names separator (mallocUnits (totalLen names separator) contents)).map some
      else some none

theorem lt_length_mallocUnits_iff (length totalLen : ℕ) (contents : ℕ → Option t.Unit) :
    length < (mallocUnits totalLen contents).length ↔
      (length + 1) * t.unitSize ≤ totalLen * t.unitSize % sizeMod := by
  rw [mallocUnits, List.length_map, List.length_range, Nat.lt_iff_add_one_le,
    Nat.le_div_iff_mul_le t.unitSize_pos]

/-- A buffer that is allocated for a text and its NUL holds nothing else. -/
theorem fill_mallocUnits {text : List t.Unit} {contents : ℕ → Option t.Unit}
    (hfits : (text.length + 1) * t.unitSize < sizeMod) :
    fill text (mallocUnits (text.length + 1) contents) = some (terminated text) := by
  have hlength : (mallocUnits (t := t) (text.length + 1) contents).length = text.length + 1 := by
    rw [mallocUnits, List.length_map, List.length_range, Nat.mod_eq_of_lt hfits,
      Nat.mul_div_cancel _ t.unitSize_pos]
  rw [fill, if_pos (by omega), List.drop_eq_nil_of_le hlength.le, List.append_nil]

/-- **The two passes return what `join` says**: the string in the buffer. -/
theorem map_joinBuffer {pass : Pass t} (hpass : Fills pass) (list : t.list.Items)
    (separator : Option (List t.Unit)) (alloc : Alloc t.list.Slot) (contents : ℕ → Option t.Unit) :
    (joinBuffer pass list separator alloc.malloc contents).map (fun out => out.bind cellText) =
      t.join list separator alloc := by
  rw [joinBuffer, join]
  split_ifs with hempty hmalloc
  · rfl
  · rfl
  · cases hnames : t.list.names list with
    | none => rfl
    | some names =>
        rw [Option.bind_some, Option.bind_some]
        dsimp only
        rw [hpass, fill, totalLen_eq, terminated, List.append_assoc]
        simp only [lt_length_mallocUnits_iff]
        split_ifs with hfits
        · rw [Option.map_some, Option.map_some, Option.bind_some, List.singleton_append,
            cellText_append]
        · rfl
  · cases t.list.names list <;> rfl

/-- A join whose first pass counts the units that the second one writes, and whose buffer holds
the strings with the separator between them, the NUL, and nothing else. -/
def JoinsExactly (joined : Bool → (ℕ → Option t.Unit) → Option (Option (List (Option t.Unit))))
    (entries : List t.list.Entry) (separator : List t.Unit) : Prop :=
  let text := separator.intercalate (entries.map Prod.fst)
  totalLen (entries.map fun entry => some entry.1) separator = text.length + 1 ∧
    ∀ malloc contents,
      joined malloc contents = some (if malloc then some (terminated text) else none)

/-- The bytes of the strings, of the separators between them and of the NUL are a `size_t`. -/
def BytesFit (entries : List t.list.Entry) (separator : List t.Unit) : Prop :=
  t.unitCount (entries.map fun entry => some entry.1) separator * t.unitSize < sizeMod

/-- Empty strings and their separators. -/
theorem unitCount_empty (n : ℕ) (separator : List t.Unit) :
    t.unitCount ((List.replicate n (([], ()) : t.list.Entry)).map fun entry => some entry.1)
      separator = separator.length * (n - 1) + 1 := by
  rw [List.map_replicate, unitCount, List.map_replicate, List.sum_replicate_nat,
    List.length_replicate, Option.getD_some, List.length_nil, Nat.mul_zero, Nat.zero_add]

/-- What the list invariant says of the slots in use: all of them have a string. -/
def StringsInFront (list : t.list.Items) (entries : List t.list.Entry) : Prop :=
  list.count = entries.length ∧ ∃ behind, list.items = some (entries.map slotOf ++ behind)

theorem stringsInFront_of_wellFormed {list : t.list.Items} {entries : List t.list.Entry}
    (hlist : WellFormed list entries) : StringsInFront list entries := by
  obtain ⟨hcount, -, slots, hitems, -, hfront, -⟩ := hlist
  refine ⟨hcount, slots.drop list.count, ?_⟩
  rw [hitems, ← hfront, List.take_append_drop]

/-- With the separator between all strings, there are as many units as are counted. -/
theorem length_intercalate (separator : List t.Unit) (entries : List t.list.Entry) :
    (separator.intercalate (entries.map Prod.fst)).length + 1 =
      t.unitCount (entries.map fun entry => some entry.1) separator := by
  rw [← joinNames_eq, length_joinNames, names_eq_map_some]

/-- The buffer of a list of strings. -/
theorem joinBuffer_eq {pass : Pass t} (hpass : Fills pass) {entries : List t.list.Entry}
    {list : t.list.Items} (hlist : StringsInFront list entries)
    (separator : Option (List t.Unit)) (malloc : Bool) (contents : ℕ → Option t.Unit)
    (hentries : entries ≠ []) :
    joinBuffer pass list separator malloc contents =
      if malloc then
        (fill ((separator.getD []).intercalate (entries.map Prod.fst))
          (mallocUnits (totalLen (entries.map fun entry => some entry.1) (separator.getD []))
            contents)).map some
      else some none := by
  obtain ⟨hcount, behind, hitems⟩ := hlist
  have hnames : t.list.names list = some (entries.map fun entry => some entry.1) := by
    obtain ⟨count, capacity, items⟩ := list
    subst hcount hitems
    exact loadNames_eq entries.length capacity [] entries behind
  rw [joinBuffer, hcount, if_neg (List.length_pos_iff.mpr hentries).ne', hnames,
    Option.bind_some]
  dsimp only
  rw [hpass, names_eq_map_some, joinNames_eq]

/-- A join is exact if and only if its bytes are a `size_t`. -/
theorem joinsExactly_iff_bytesFit {pass : Pass t} (hpass : Fills pass)
    (hunit : t.unitSize < sizeMod) {entries : List t.list.Entry} {list : t.list.Items}
    (hlist : StringsInFront list entries) (separator : Option (List t.Unit)) :
    JoinsExactly (joinBuffer pass list separator) entries (separator.getD []) ↔
      BytesFit entries (separator.getD []) := by
  have hlength := length_intercalate (separator.getD []) entries
  have htotal := totalLen_eq (entries.map fun entry => some entry.1) (separator.getD [])
  rw [BytesFit, JoinsExactly]
  dsimp only
  by_cases hentries : entries = []
  · subst hentries
    have hcount : list.count = 0 := hlist.1
    refine iff_of_true ⟨by rw [htotal, ← hlength]; rfl, fun malloc contents => ?_⟩ ?_
    · rw [joinBuffer, if_pos hcount]
      rfl
    · rw [← hlength]
      exact (Nat.one_mul t.unitSize).symm ▸ hunit
  · simp only [joinBuffer_eq hpass hlist separator _ _ hentries]
    constructor
    · rintro ⟨-, hjoined⟩
      -- a buffer that holds the text and its NUL has that many bytes
      have hfill := hjoined true fun _ => none
      rw [if_pos rfl, if_pos rfl, fill] at hfill
      split_ifs at hfill with hroom
      · rw [lt_length_mallocUnits_iff, hlength] at hroom
        exact Nat.lt_of_le_of_lt hroom (Nat.mod_lt _ (by decide))
      · exact absurd hfill (Option.some_ne_none _).symm
    · intro hfits
      have hunits := Nat.lt_of_le_of_lt (Nat.le_mul_of_pos_right _ t.unitSize_pos) hfits
      rw [Nat.mod_eq_of_lt hunits] at htotal
      refine ⟨htotal.trans hlength.symm, fun malloc contents => ?_⟩
      cases malloc with
      | false => rfl
      | true =>
          rw [if_pos rfl, if_pos rfl, htotal, ← hlength,
            fill_mallocUnits (by rw [hlength]; exact hfits), Option.map_some]

/-- Separators that are too long for their number. -/
theorem not_joinsExactly_of_le {pass : Pass t} (hpass : Fills pass) (hunit : t.unitSize < sizeMod)
    {n m : ℕ} {list : t.list.Items} (hlist : StringsInFront list (List.replicate n ([], ())))
    {separator : List t.Unit} (hlength : separator.length = m)
    (hlong : sizeMod ≤ (m * (n - 1) + 1) * t.unitSize) :
    ¬ JoinsExactly (joinBuffer pass list (some separator)) (List.replicate n ([], ()))
      separator := by
  intro hjoins
  have hfits : BytesFit (List.replicate n ([], ())) separator :=
    (joinsExactly_iff_bytesFit hpass hunit hlist (some separator)).mp hjoins
  rw [BytesFit, unitCount_empty, hlength] at hfits
  exact absurd hfits (Nat.not_lt.mpr hlong)

end TextCode

/-- `string_list_join`. -/
def stringListJoin (list : stringText.list.Items) (separator : Option CString) (malloc : Bool)
    (contents : ℕ → Option CChar) : Option (Option (List (Option CChar))) :=
  TextCode.joinBuffer (t := stringText) TextCode.catPass list separator malloc contents

/-- `wstring_list_join`. -/
def wstringListJoin (list : wstringText.list.Items) (separator : Option WString) (malloc : Bool)
    (contents : ℕ → Option WChar) : Option (Option (List (Option WChar))) :=
  TextCode.joinBuffer (t := wstringText) TextCode.copyPass list separator malloc contents

/-- **The join buffers are sized exactly** if and only if their bytes are a `size_t`. -/
theorem joins_iff {entries : List stringText.list.Entry} {list : stringText.list.Items}
    (hlist : TextCode.StringsInFront list entries) (separator : Option CString)
    {wideEntries : List wstringText.list.Entry} {wideList : wstringText.list.Items}
    (hwide : TextCode.StringsInFront wideList wideEntries) (wideSeparator : Option WString) :
    (TextCode.JoinsExactly (t := stringText) (stringListJoin list separator) entries
        (separator.getD []) ↔
      TextCode.BytesFit (t := stringText) entries (separator.getD [])) ∧
    (TextCode.JoinsExactly (t := wstringText) (wstringListJoin wideList wideSeparator) wideEntries
        (wideSeparator.getD []) ↔
      TextCode.BytesFit (t := wstringText) wideEntries (wideSeparator.getD [])) :=
  ⟨TextCode.joinsExactly_iff_bytesFit TextCode.fills_catPass (by decide) hlist separator,
    TextCode.joinsExactly_iff_bytesFit TextCode.fills_copyPass (by decide) hwide wideSeparator⟩

/-- A star between empty strings, separated by slashes, and two empty wide strings. -/
theorem joins_starBetween :
    TextCode.JoinsExactly (t := stringText)
        (stringListJoin (ListCode.listOf [([], ()), ([CChar.star], ()), ([], ())] 13)
          (some [CChar.slash]))
        [([], ()), ([CChar.star], ()), ([], ())] [CChar.slash] ∧
      TextCode.JoinsExactly (t := wstringText)
        (wstringListJoin (ListCode.listOf [([], ()), ([], ())] 14) none)
        [([], ()), ([], ())] [] := by
  have hjoins := @joins_iff [([], ()), ([CChar.star], ()), ([], ())]
    (ListCode.listOf [([], ()), ([CChar.star], ()), ([], ())] 13) ⟨rfl, _, rfl⟩
    (some [CChar.slash]) [([], ()), ([], ())]
    (ListCode.listOf [([], ()), ([], ())] 14) ⟨rfl, _, rfl⟩ none
  exact ⟨hjoins.1.mpr (by unfold TextCode.BytesFit; decide),
    hjoins.2.mpr (by unfold TextCode.BytesFit; decide)⟩

/-- Empty strings, one more than 2^31. -/
def manyEmpty : List stringList.Entry := List.replicate (2 ^ 31 + 1) ([], ())

/-- 2^31 separators of 2^33 bytes: `total_len` wraps to the one byte of the NUL. -/
theorem not_joinsExactly_longSeparators :
    ListCode.WellFormed (ListCode.listOf manyEmpty (2 ^ 31 - 1)) manyEmpty ∧
      ¬ TextCode.JoinsExactly (t := stringText)
        (stringListJoin (ListCode.listOf manyEmpty (2 ^ 31 - 1))
          (some (List.replicate (2 ^ 33) CChar.star)))
        manyEmpty (List.replicate (2 ^ 33) CChar.star) := by
  have hwell : ListCode.WellFormed (ListCode.listOf manyEmpty (2 ^ 31 - 1)) manyEmpty := by
    refine ListCode.Represents.wellFormed ⟨2 ^ 31 - 1, rfl, ?_⟩
    rw [manyEmpty, List.length_replicate]
    decide
  exact ⟨hwell, TextCode.not_joinsExactly_of_le TextCode.fills_catPass (by decide)
    (TextCode.stringsInFront_of_wellFormed hwell) List.length_replicate (by decide)⟩

end BasC
