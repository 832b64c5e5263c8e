import FlatSelect.Column.List

/-!
# What wildcards cover

A pattern matches a text if the text is made of one piece for each character of the pattern
(`Glob.Matches`). Whether a pattern covers a text is decided from the end of the pattern, for all
endings of the text at once. What is kept at each step is that an ending is marked if the part of
the pattern that has been read matches it (`Glob.marks_endings`), so a text is covered if the whole
pattern matches it (`Glob.covers_iff`).

Patterns are compared by reading one of them as a text. A pattern that matches the text of another
one also matches what that one matches (`Glob.Matches.trans`), as long as none of its question marks
takes a star of the other, which may stand for any number of characters.
-/

namespace FlatSelect

namespace Glob

/-- A pattern matches a text. What a question mark takes is a parameter. -/
inductive Matches (single : Char → Bool) : List Char → List Char → Prop
  | nil : Matches single [] []
  | starEnds {pattern text : List Char} (h : Matches single pattern text) :
    Matches single ('*' :: pattern) text
  | starTakes {pattern text : List Char} {c : Char} (hc : takes c = true)
    (h : Matches single ('*' :: pattern) text) : Matches single ('*' :: pattern) (c :: text)
  | question {pattern text : List Char} {c : Char} (hc : single c = true)
    (h : Matches single pattern text) : Matches single ('?' :: pattern) (c :: text)
  | literal {pattern text : List Char} {c : Char} (hstar : c ≠ '*') (hquestion : c ≠ '?')
    (h : Matches single pattern text) : Matches single (c :: pattern) (c :: text)

/-- Marks for the endings of a text, the text itself first, tell which of them have a property. -/
inductive Marks (holds : List Char → Prop) : List Char → List Bool → Prop
  | nil {mark : Bool} (h : mark = true ↔ holds []) : Marks holds [] [mark]
  | cons {c : Char} {text : List Char} {mark : Bool} {marks : List Bool}
    (h : mark = true ↔ holds (c :: text)) (hrest : Marks holds text marks) :
    Marks holds (c :: text) (mark :: marks)

variable {holds holds' : List Char → Prop} {single : Char → Bool} {marks : List Bool}
  {pattern text : List Char}

/-- The first mark is that of the text itself. -/
theorem Marks.headD (h : Marks holds text marks) : marks.headD false = true ↔ holds text := by
  cases h with
  | nil h => exact h
  | cons h _ => exact h

/-- The marks before any of the pattern is read. -/
theorem marks_start (text : List Char) :
    Marks (Matches single []) text (text.map (fun _ => false) ++ [true]) := by
  induction text with
  | nil => exact .nil (iff_of_true rfl .nil)
  | cons c text ih => exact .cons (iff_of_false Bool.false_ne_true nofun) ih

theorem matches_star_nil : Matches single ('*' :: pattern) [] ↔ Matches single pattern [] := by
  constructor
  · intro h
    cases h with
    | starEnds h => exact h
  · exact .starEnds

theorem matches_star_cons {c : Char} : Matches single ('*' :: pattern) (c :: text) ↔
    Matches single pattern (c :: text) ∨
      takes c = true ∧ Matches single ('*' :: pattern) text := by
  constructor
  · intro h
    cases h with
    | starEnds h => exact .inl h
    | starTakes hc h => exact .inr ⟨hc, h⟩
    | literal hstar => exact absurd rfl hstar
  · rintro (h | ⟨hc, h⟩)
    · exact .starEnds h
    · exact .starTakes hc h

theorem matches_question_cons {c : Char} : Matches single ('?' :: pattern) (c :: text) ↔
    single c = true ∧ Matches single pattern text := by
  constructor
  · intro h
    cases h with
    | question hc h => exact ⟨hc, h⟩
    | literal _ hquestion => exact absurd rfl hquestion
  · rintro ⟨hc, h⟩
    exact .question hc h

theorem matches_literal_cons {c d : Char} (hstar : c ≠ '*') (hquestion : c ≠ '?') :
    Matches single (c :: pattern) (d :: text) ↔ d = c ∧ Matches single pattern text := by
  constructor
  · intro h
    cases h with
    | starEnds => exact absurd rfl hstar
    | starTakes => exact absurd rfl hstar
    | question => exact absurd rfl hquestion
    | literal _ _ h => exact ⟨rfl, h⟩
  · rintro ⟨rfl, h⟩
    exact .literal hstar hquestion h

/-- Nothing but stars matches the empty text. -/
theorem not_matches_nil {c : Char} (hstar : c ≠ '*') : ¬ Matches single (c :: pattern) [] := by
  intro h
  cases h
  exact hstar rfl

theorem Marks.extendStar (h : Marks (Matches single pattern) text marks) :
    Marks (Matches single ('*' :: pattern)) text (extendStar text marks) := by
  induction h with
  | nil h => exact .nil (h.trans matches_star_nil.symm)
  | @cons c text mark marks h _ ih =>
      refine .cons ?_ ih
      rw [matches_star_cons, ← h, ← ih.headD, Bool.or_eq_true, Bool.and_eq_true]

/-- A character of the pattern that takes one character and no more. -/
theorem Marks.extendOne {one : Char → Bool} (h : Marks holds text marks) (hnil : ¬ holds' [])
    (hcons : ∀ c text, holds' (c :: text) ↔ one c = true ∧ holds text) :
    Marks holds' text (extendOne one text marks) := by
  induction h with
  | nil => exact .nil (iff_of_false Bool.false_ne_true hnil)
  | @cons c text mark marks _ hrest ih =>
      refine .cons ?_ ih
      rw [hcons, ← hrest.headD, Bool.and_eq_true]

/-- An ending is marked if the pattern matches it. -/
theorem marks_endings (text pattern : List Char) :
    Marks (Matches takes pattern) text (endings text pattern) := by
  fun_induction endings text pattern with
  | case1 => exact marks_start text
  | case2 pattern ih => exact ih.extendStar
  | case3 pattern ih =>
      exact ih.extendOne (not_matches_nil (by decide)) fun _ _ => matches_question_cons
  | case4 c pattern hstar hquestion ih =>
      refine ih.extendOne (not_matches_nil hstar) fun d text => ?_
      rw [matches_literal_cons hstar hquestion, decide_eq_true_eq]

theorem covers_iff {pattern text : String} :
    covers pattern text = true ↔ Matches takes pattern.toList text.toList :=
  (marks_endings text.toList pattern.toList).headD

/-! ### Patterns that are read as texts -/

/-- A pattern that matches the text of another one, with no question mark for a star. -/
def Contains (wide narrow : String) : Prop :=
  Matches (fun c => takes c && c ≠ '*') wide.toList narrow.toList

/-- A star takes whatever a single character of another pattern takes. -/
theorem Matches.starTakes_of_cons {wide narrow : List Char} {c : Char} (hc : takes c = true)
    (hstar : ∀ text, Matches takes narrow text → Matches takes ('*' :: wide) text)
    (h : Matches takes (c :: narrow) text) : Matches takes ('*' :: wide) text := by
  generalize hpattern : c :: narrow = pattern at h
  induction h with
  | nil => cases hpattern
  | starEnds h =>
      cases hpattern
      exact hstar _ h
  | starTakes hd _ ih => exact .starTakes hd (ih hpattern)
  | question hd h =>
      cases hpattern
      exact .starTakes hd (hstar _ h)
  | literal _ _ h =>
      cases hpattern
      exact .starTakes hc (hstar _ h)

theorem Matches.trans {wide narrow : List Char}
    (hwide : Matches (fun c => takes c && c ≠ '*') wide narrow) (h : Matches takes narrow text) :
    Matches takes wide text := by
  induction hwide generalizing text with
  | nil => exact h
  | starEnds _ ih => exact .starEnds (ih h)
  | starTakes hc _ ih => exact .starTakes_of_cons hc (fun _ => ih) h
  | question hc _ ih =>
      rw [Bool.and_eq_true, decide_eq_true_eq] at hc
      cases h with
      | starEnds => exact absurd rfl hc.2
      | starTakes => exact absurd rfl hc.2
      | question hd h => exact .question hd (ih h)
      | literal _ _ h => exact .question hc.1 (ih h)
  | literal hstar hquestion _ ih =>
      cases h with
      | starEnds => exact absurd rfl hstar
      | starTakes => exact absurd rfl hstar
      | question => exact absurd rfl hquestion
      | literal _ _ h => exact .literal hstar hquestion (ih h)

/-- What a pattern covers is covered by any pattern that contains it. -/
theorem Contains.covers {wide narrow text : String} (h : Contains wide narrow)
    (hcovers : Glob.covers narrow text = true) : Glob.covers wide text = true :=
  covers_iff.mpr (h.trans (covers_iff.mp hcovers))

/-- Without question marks it does not matter what they would take. -/
theorem Matches.of_no_question {single' : Char → Bool} (h : Matches single pattern text)
    (hpattern : '?' ∉ pattern) : Matches single' pattern text := by
  induction h with
  | nil => exact .nil
  | starEnds _ ih => exact .starEnds (ih fun hmem => hpattern (List.mem_cons_of_mem _ hmem))
  | starTakes hc _ ih => exact .starTakes hc (ih hpattern)
  | question => exact absurd List.mem_cons_self hpattern
  | literal hstar hquestion _ ih =>
      exact .literal hstar hquestion (ih fun hmem => hpattern (List.mem_cons_of_mem _ hmem))

theorem contains_of_covers {wide narrow : String} (h : '?' ∉ wide.toList)
    (hcovers : Glob.covers wide narrow = true) : Contains wide narrow :=
  (covers_iff.mp hcovers).of_no_question h

/-! ### Patterns that end in a star -/

theorem matches_star : Matches single ['*'] text ↔ ∀ c ∈ text, takes c = true := by
  induction text with
  | nil => exact iff_of_true (.starEnds .nil) nofun
  | cons c text ih =>
      rw [matches_star_cons, ih, List.forall_mem_cons, or_iff_right nofun]

/-- What stands before the first star or question mark of a pattern is taken as it is. -/
theorem matches_append {front : List Char} (hfront : ∀ c ∈ front, c ≠ '*' ∧ c ≠ '?') :
    Matches single (front ++ pattern) text ↔
      ∃ rest, text = front ++ rest ∧ Matches single pattern rest := by
  induction front generalizing text with
  | nil => simp
  | cons c front ih =>
      obtain ⟨⟨hstar, hquestion⟩, hfront⟩ := List.forall_mem_cons.mp hfront
      cases text with
      | nil => simpa using not_matches_nil hstar
      | cons d text =>
          rw [List.cons_append, matches_literal_cons hstar hquestion, ih hfront]
          simp only [List.cons_append, List.cons.injEq, and_assoc, exists_and_left]

end Glob

end FlatSelect
