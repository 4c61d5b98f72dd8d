/-
# Colors

A text for a terminal has color sequences in it. A terminal takes a sequence from its escape
character to the letter `m` for a color, and shows the rest.
-/

import BasC.Base.CString

namespace BasC

open CChar

def CChar.escape : CChar := ⟨27, by decide⟩
def CChar.lowerM : CChar := ⟨109, by decide⟩

/-- What is shown of a text, which begins inside a color sequence or outside. -/
def shownFrom : Bool → CString → CString
  | _, [] => []
  | true, c :: text => shownFrom (c ≠ lowerM) text
  | false, c :: text => if c = escape then shownFrom true text else c :: shownFrom false text

/-- Whether the text ends inside a color sequence. -/
def endsInside : Bool → CString → Bool
  | inside, [] => inside
  | true, c :: text => endsInside (c ≠ lowerM) text
  | false, c :: text => endsInside (c = escape) text

/-- What is shown of a text. -/
def shown (text : CString) : CString := shownFrom false text

/-- The text is shown as the other one, and does not end inside a color sequence. -/
def ShownAs (text plain : CString) : Prop :=
  shown text = plain ∧ endsInside false text = false

/-- The text is a number of color sequences. -/
def IsColor (text : CString) : Prop := ShownAs text []

theorem shownFrom_append (inside : Bool) (text more : CString) :
    shownFrom inside (text ++ more) =
      shownFrom inside text ++ shownFrom (endsInside inside text) more := by
  induction text generalizing inside with
  | nil => cases inside <;> rfl
  | cons c text ih =>
      cases inside with
      | true => exact ih _
      | false =>
          rw [List.cons_append, shownFrom, shownFrom, endsInside]
          by_cases hc : c = escape
          · rw [if_pos hc, if_pos hc, decide_eq_true hc]
            exact ih true
          · rw [if_neg hc, if_neg hc, decide_eq_false hc, ih false]
            rfl

theorem endsInside_append (inside : Bool) (text more : CString) :
    endsInside inside (text ++ more) = endsInside (endsInside inside text) more := by
  induction text generalizing inside with
  | nil => cases inside <;> rfl
  | cons c text ih => cases inside <;> exact ih _

/-- **What is shown of texts one after the other.** -/
theorem ShownAs.append {text plain more plainMore : CString} (htext : ShownAs text plain)
    (hmore : ShownAs more plainMore) : ShownAs (text ++ more) (plain ++ plainMore) := by
  constructor
  · rw [shown, shownFrom_append, htext.2]
    exact congrArg₂ (· ++ ·) htext.1 hmore.1
  · rw [endsInside_append, htext.2, hmore.2]

/-- A text without escape characters is shown as it is. -/
theorem shownAs_self {text : CString} (htext : escape ∉ text) : ShownAs text text := by
  induction text with
  | nil => exact ⟨rfl, rfl⟩
  | cons c text ih =>
      rw [List.mem_cons, not_or] at htext
      obtain ⟨hshown, hends⟩ := ih htext.2
      have hc : c ≠ escape := Ne.symm htext.1
      constructor
      · rw [shown, shownFrom, if_neg hc]
        exact congrArg (c :: ·) hshown
      · rw [endsInside, decide_eq_false hc]
        exact hends

/-- A text between colors. -/
theorem ShownAs.colored {before text plain after : CString} (hbefore : IsColor before)
    (htext : ShownAs text plain) (hafter : IsColor after) :
    ShownAs (before ++ text ++ after) plain := by
  have hboth := (hbefore.append htext).append hafter
  rwa [List.nil_append, List.append_nil] at hboth

end BasC
