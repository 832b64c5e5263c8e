import FlatSelect.Column.Search
import FlatSelect.Proofs.Wildcards
import Mathlib.Data.List.Forall2

/-!
# The pieces of a covered text

A text is covered by a pattern if it can be cut into pieces, one for each character of the pattern,
such that each character takes its piece (`Glob.matches_iff_pieces`). This is what one gets as well
by writing the pattern as a search expression: the two anchors make it match the whole text or
nothing, and between them stands one element for each character (`Search.matchesFront_elements`). So
for any library that searches as documented the answers are those of `Glob.covers`
(`Search.Engine.Documented.covers_iff_pieces`).

That there can be such a library is seen from one that reads just the elements that a pattern is
written with (`Search.reader`).
-/

namespace FlatSelect

namespace Glob

/-- What a character of a pattern takes: a star any piece of a line, a question mark one character
of it, and every other character itself. -/
def Piece (c : Char) (piece : List Char) : Prop :=
  match c with
  | '*' => '\n' ∉ piece
  | '?' => ∃ d, d ≠ '\n' ∧ piece = [d]
  | c => piece = [c]

variable {pattern text : List Char}

theorem piece_of_literal {c : Char} {piece : List Char} (hstar : c ≠ '*') (hquestion : c ≠ '?') :
    Piece c piece ↔ piece = [c] := by
  unfold Piece
  split
  · exact absurd rfl hstar
  · exact absurd rfl hquestion
  · rfl

theorem takes_iff {c : Char} : takes c = true ↔ c ≠ '\n' := by
  simp [takes]

/-- A star takes any piece of a line before what the rest of the pattern matches. -/
theorem matches_star_append {piece : List Char} (hpiece : '\n' ∉ piece)
    (h : Matches takes pattern text) : Matches takes ('*' :: pattern) (piece ++ text) := by
  induction piece with
  | nil => exact .starEnds h
  | cons c piece ih =>
      obtain ⟨hc, hpiece⟩ := List.ne_and_not_mem_of_not_mem_cons hpiece
      exact .starTakes (takes_iff.mpr hc.symm) (ih hpiece)

theorem matches_flatten {pieces : List (List Char)} (h : List.Forall₂ Piece pattern pieces) :
    Matches takes pattern pieces.flatten := by
  induction h with
  | nil => exact .nil
  | @cons c piece pattern pieces hpiece _ ih =>
      rw [List.flatten_cons]
      by_cases hstar : c = '*'
      · subst hstar
        exact matches_star_append hpiece ih
      · by_cases hquestion : c = '?'
        · subst hquestion
          obtain ⟨d, hd, rfl⟩ := hpiece
          exact .question (takes_iff.mpr hd) ih
        · obtain rfl := (piece_of_literal hstar hquestion).mp hpiece
          exact .literal hstar hquestion ih

theorem Matches.exists_pieces (h : Matches takes pattern text) :
    ∃ pieces, List.Forall₂ Piece pattern pieces ∧ pieces.flatten = text := by
  induction h with
  | nil => exact ⟨[], .nil, rfl⟩
  | starEnds _ ih =>
      obtain ⟨pieces, hpieces, rfl⟩ := ih
      exact ⟨[] :: pieces, .cons List.not_mem_nil hpieces, rfl⟩
  | starTakes hc _ ih =>
      -- The star has taken a piece already, and takes one character more.
      obtain ⟨_, _ | ⟨hpiece, hpieces⟩, rfl⟩ := ih
      have hlonger := List.not_mem_cons_of_ne_of_not_mem (takes_iff.mp hc).symm hpiece
      exact ⟨_, .cons hlonger hpieces, rfl⟩
  | question hc _ ih =>
      obtain ⟨pieces, hpieces, rfl⟩ := ih
      exact ⟨_, .cons ⟨_, takes_iff.mp hc, rfl⟩ hpieces, rfl⟩
  | literal hstar hquestion _ ih =>
      obtain ⟨pieces, hpieces, rfl⟩ := ih
      exact ⟨_, .cons ((piece_of_literal hstar hquestion).mpr rfl) hpieces, rfl⟩

/-- A pattern matches a text that is made of one piece for each of its characters. -/
theorem matches_iff_pieces : Matches takes pattern text ↔
    ∃ pieces, List.Forall₂ Piece pattern pieces ∧ pieces.flatten = text := by
  constructor
  · exact Matches.exists_pieces
  · rintro ⟨pieces, hpieces, rfl⟩
    exact matches_flatten hpieces

end Glob

namespace Search

/-! ### An engine for patterns -/

/-- The characters that mean something in expressions, and have to be quoted to stand for
themselves. -/
def isSpecial (c : Char) : Bool :=
  c ∈ ['\\', '.', '+', '*', '?', '(', ')', '|', '[', ']', '{', '}', '^', '$', '#', '&', '-', '~']

/-- The elements that a text is written with, unless it is written with anything else. -/
def read : List Char → Option (List Element)
  | [] => some []
  | '^' :: rest => (read rest).map (.start :: ·)
  | '$' :: rest => (read rest).map (.stop :: ·)
  | '.' :: '*' :: rest => (read rest).map (.many .any :: ·)
  | '.' :: rest => (read rest).map (.one .any :: ·)
  | '\\' :: c :: '*' :: rest =>
    if isSpecial c then (read rest).map (.many (.char c) :: ·) else none
  | '\\' :: c :: rest => if isSpecial c then (read rest).map (.one (.char c) :: ·) else none
  | c :: '*' :: rest => if isSpecial c then none else (read rest).map (.many (.char c) :: ·)
  | c :: rest => if isSpecial c then none else (read rest).map (.one (.char c) :: ·)

/-- An engine for the elements that a pattern is written with. -/
def reader : Engine where
  quote c := if isSpecial c then "\\" ++ String.singleton c else String.singleton c
  compile text :=
    match read text.toList with
    | some elements => .ok (found elements)
    | none => .error "not an expression"

theorem ne_of_isSpecial {c d : Char} (hc : ¬ isSpecial c = true) (hd : isSpecial d = true) :
    c ≠ d := by
  rintro rfl
  exact hc hd

theorem toList_quote (c : Char) :
    (reader.quote c).toList = if isSpecial c then ['\\', c] else [c] := by
  change (if isSpecial c then _ else _ : String).toList = _
  split
  · rw [String.toList_append, String.toList_singleton]
    rfl
  · exact String.toList_singleton c

theorem toList_write_cons (first : Element) (elements : List Element) :
    (reader.write (first :: elements)).toList =
      (reader.writeElement first).toList ++ (reader.write elements).toList := by
  rw [Engine.write, List.map_cons, String.join_cons, String.toList_append]
  rfl

/-- A single character begins with a dot, a backslash or itself, if it means nothing else. -/
theorem writeSingle_ne_star (single : Single) (rest tail : List Char) :
    (reader.writeSingle single).toList ++ rest ≠ '*' :: tail := by
  cases single with
  | any => exact fun h => absurd (List.cons.inj h).1 (by decide)
  | char c =>
      rw [Engine.writeSingle, toList_quote]
      by_cases hc : isSpecial c
      · rw [if_pos hc]
        exact fun h => absurd (List.cons.inj h).1 (by decide)
      · rw [if_neg hc]
        rintro h
        obtain rfl := (List.cons.inj h).1
        exact hc rfl

/-- No element begins with a star, so a star always belongs to what is before it. -/
theorem write_ne_star (elements : List Element) (tail : List Char) :
    (reader.write elements).toList ≠ '*' :: tail := by
  cases elements with
  | nil => nofun
  | cons first elements =>
      rw [toList_write_cons]
      cases first with
      | start => exact fun h => absurd (List.cons.inj h).1 (by decide)
      | stop => exact fun h => absurd (List.cons.inj h).1 (by decide)
      | one single => exact writeSingle_ne_star single _ tail
      | many single =>
          rw [Engine.writeElement, String.toList_append, List.append_assoc]
          exact writeSingle_ne_star single _ tail

theorem read_one (single : Single) {rest : List Char} (hrest : ∀ tail, rest ≠ '*' :: tail) :
    read ((reader.writeSingle single).toList ++ rest) = (read rest).map (.one single :: ·) := by
  cases single with
  | any =>
      change read ('.' :: rest) = _
      rw [read]
      exact hrest
  | char c =>
      rw [Engine.writeSingle, toList_quote]
      by_cases hc : isSpecial c
      · rw [if_pos hc, List.cons_append, List.singleton_append, read, if_pos hc]
        exact hrest
      · have hne : ∀ d, isSpecial d = true → c ≠ d := fun _ => ne_of_isSpecial hc
        rw [if_neg hc, List.singleton_append, read, if_neg hc]
        · exact hne '^' rfl
        · exact hne '$' rfl
        · exact fun _ h => absurd h (hne '.' rfl)
        · exact hne '.' rfl
        · exact fun _ _ h => absurd h (hne '\\' rfl)
        · exact fun _ _ h => absurd h (hne '\\' rfl)
        · exact hrest

theorem read_many (single : Single) (rest : List Char) :
    read ((reader.writeSingle single).toList ++ '*' :: rest) =
      (read rest).map (.many single :: ·) := by
  cases single with
  | any => rfl
  | char c =>
      rw [Engine.writeSingle, toList_quote]
      by_cases hc : isSpecial c
      · rw [if_pos hc, List.cons_append, List.singleton_append, read, if_pos hc]
      · have hne : ∀ d, isSpecial d = true → c ≠ d := fun _ => ne_of_isSpecial hc
        rw [if_neg hc, List.singleton_append, read, if_neg hc]
        · exact hne '^' rfl
        · exact hne '$' rfl
        · exact hne '.' rfl
        · exact fun _ h => absurd h (hne '\\' rfl)
        · exact hne '\\' rfl

/-- Every expression is read as it was written. -/
theorem read_write (elements : List Element) :
    read (reader.write elements).toList = some elements := by
  induction elements with
  | nil => rfl
  | cons first elements ih =>
      rw [toList_write_cons]
      cases first with
      | start =>
          change Option.map _ (read (reader.write elements).toList) = _
          rw [ih, Option.map_some]
      | stop =>
          change Option.map _ (read (reader.write elements).toList) = _
          rw [ih, Option.map_some]
      | one single =>
          rw [Engine.writeElement, read_one single (write_ne_star elements), ih, Option.map_some]
      | many single =>
          rw [Engine.writeElement, String.toList_append, List.append_assoc]
          refine (read_many single _).trans ?_
          change Option.map _ (read (reader.write elements).toList) = _
          rw [ih, Option.map_some]

theorem compile_write (elements : List Element) :
    reader.compile (reader.write elements) = .ok (found elements) := by
  change (match read (reader.write elements).toList with
    | some elements => Except.ok (found elements)
    | none => .error "not an expression") = _
  rw [read_write]

theorem documented_reader : reader.Documented where
  finds_eq := by
    intro elements finds h text
    rw [compile_write] at h
    cases h
    rfl

/-! ### Expressions for patterns -/

/-- The element for a character of a pattern. -/
def element : Char → Element
  | '*' => .many .any
  | '?' => .one .any
  | c => .one (.char c)

variable {elements : List Element} {pattern text : List Char} {atStart : Bool}

theorem element_of_literal {c : Char} (hstar : c ≠ '*') (hquestion : c ≠ '?') :
    element c = .one (.char c) := by
  unfold element
  split
  · exact absurd rfl hstar
  · exact absurd rfl hquestion
  · rfl

/-- A run of characters of a line is what a star takes. -/
theorem run_any {next : Bool → List Char → Bool}
    (hnext : ∀ {atStart text}, next atStart text = true ↔ Glob.Matches Glob.takes pattern text) :
    run .any next atStart text = true ↔ Glob.Matches Glob.takes ('*' :: pattern) text := by
  induction text generalizing atStart with
  | nil =>
      rw [run, hnext, Glob.matches_star_nil]
  | cons c text ih =>
      rw [run, Bool.or_eq_true, Bool.and_eq_true, hnext, ih, Glob.matches_star_cons]
      rfl

/-- Before the end of the text, one element for each character of a pattern matches what the pattern
matches. -/
theorem matchesFront_elements : matchesFront (pattern.map element ++ [.stop]) atStart text = true ↔
    Glob.Matches Glob.takes pattern text := by
  induction pattern generalizing atStart text with
  | nil =>
      cases text with
      | nil => exact iff_of_true rfl .nil
      | cons c text => exact iff_of_false Bool.false_ne_true nofun
  | cons p pattern ih =>
      rw [List.map_cons, List.cons_append]
      by_cases hstar : p = '*'
      · subst hstar
        exact run_any ih
      · by_cases hquestion : p = '?'
        · subst hquestion
          cases text with
          | nil => exact iff_of_false Bool.false_ne_true (Glob.not_matches_nil hstar)
          | cons c text =>
              rw [Glob.matches_question_cons, ← ih, ← Bool.and_eq_true]
              rfl
        · rw [element_of_literal hstar hquestion]
          cases text with
          | nil => exact iff_of_false Bool.false_ne_true (Glob.not_matches_nil hstar)
          | cons c text =>
              rw [Glob.matches_literal_cons hstar hquestion, ← ih, matchesFront, Bool.and_eq_true,
                Single.takes, decide_eq_true_eq]

/-- An expression that begins at the beginning of the text is found there or nowhere. -/
theorem foundIn_start : ∀ text, foundIn (.start :: elements) false text = false
  | [] => rfl
  | _ :: text => foundIn_start text

theorem found_start (text : String) :
    found (.start :: elements) text = matchesFront elements true text.toList := by
  rw [found]
  cases text.toList with
  | nil => rfl
  | cons c text => exact (congrArg _ (foundIn_start text)).trans (Bool.or_false _)

namespace Engine

variable {e : Engine}

theorem writePiece_eq (e : Engine) (c : Char) : e.writePiece c = e.writeElement (element c) := by
  unfold writePiece
  split
  · rfl
  · rfl
  · rename_i hstar hquestion
    rw [element_of_literal hstar hquestion]
    rfl

theorem expression_eq (e : Engine) (pattern : String) :
    e.expression pattern = e.write (.start :: (pattern.toList.map element ++ [.stop])) := by
  have hpieces : (pattern.toList.map element).map e.writeElement =
      pattern.toList.map e.writePiece := by
    rw [List.map_map]
    exact List.map_congr_left fun c _ => (e.writePiece_eq c).symm
  rw [write, List.map_cons, List.map_append, hpieces, String.join_cons, String.join_append,
    expression, String.append_assoc]
  rfl

/-- An engine that searches as documented answers for every pattern that it does not refuse, and
what it answers is whether the pattern covers the text. That is so exactly if the text is made of
one piece for each character of the pattern. -/
theorem Documented.covers_iff_pieces (h : e.Documented) {pattern : String}
    (hcompiles : ∃ finds, e.compile (e.expression pattern) = .ok finds) (text : String) :
    e.covers pattern text = .ok (Glob.covers pattern text) ∧
      (Glob.covers pattern text = true ↔ ∃ pieces : List (List Char),
        List.Forall₂ Glob.Piece pattern.toList pieces ∧ pieces.flatten = text.toList) := by
  obtain ⟨finds, hfinds⟩ := hcompiles
  have hmatches : finds text = true ↔ Glob.Matches Glob.takes pattern.toList text.toList := by
    rw [expression_eq] at hfinds
    rw [h.finds_eq hfinds, found_start, matchesFront_elements]
  have hcovers : finds text = Glob.covers pattern text := by
    rw [Bool.eq_iff_iff, hmatches, Glob.covers_iff]
  constructor
  · simp only [covers, hfinds, hcovers]
  · rw [Glob.covers_iff, Glob.matches_iff_pieces]

/-- A star may take nothing, and the dot of a pattern takes a dot. -/
theorem Documented.covers_iff_pieces_qualified :
    reader.Documented ∧ (∃ finds, reader.compile (reader.expression "B.?*") = .ok finds) ∧
      reader.covers "B.?*" "B.x" = .ok true ∧ reader.covers "B.?*" "Bxx" = .ok false ∧
      ∃ pieces : List (List Char),
        List.Forall₂ Glob.Piece "B.?*".toList pieces ∧ pieces.flatten = "B.x".toList := by
  have hcompiles : ∃ finds, reader.compile (reader.expression "B.?*") = .ok finds :=
    ⟨_, expression_eq reader "B.?*" ▸ compile_write _⟩
  obtain ⟨hcovers, hpieces⟩ := documented_reader.covers_iff_pieces hcompiles "B.x"
  obtain ⟨hcovers', _⟩ := documented_reader.covers_iff_pieces hcompiles "Bxx"
  have hx : Glob.covers "B.?*" "B.x" = true := by decide +kernel
  have hxx : Glob.covers "B.?*" "Bxx" = false := by decide +kernel
  exact ⟨documented_reader, hcompiles, hx ▸ hcovers, hxx ▸ hcovers', hpieces.mp hx⟩

end Engine

end Search

end FlatSelect
