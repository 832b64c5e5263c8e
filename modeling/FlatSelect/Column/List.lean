import FlatSelect.Column.Glob

/-!
# Lists of columns

A projection lists columns by name or by wildcard: `B.*` stands for every column of branch `B`.
Two lists that apply one after the other are merged into one that selects what both select, in the
order of the outer list.

A name that a list does not have may still be selected by a wildcard. Of several that cover it the
first is found (`Columns.coveringWildcard?_eq_some_iff`).
-/

namespace FlatSelect

namespace Columns

/-- A name with the alias of the branch that it comes from. -/
def qualify (asName column : String) : String :=
  asName ++ "." ++ column

/-- What two entries select together, as one of them. A wildcard gives way to a name that it
covers, and of two wildcards the narrower is kept. -/
def unify? (a b : String) : Option String :=
  match Glob.isWildcard a, Glob.isWildcard b with
  | false, false => if a = b then some a else none
  | false, true => if Glob.covers b a then some a else none
  | true, false => if Glob.covers a b then some b else none
  | true, true => if Glob.covers b a then some a else if Glob.covers a b then some b else none

/-- What an inner and an outer list select together: every outer entry in turn unified with every
inner one, without repeats. -/
def intersect (inner outer : List String) : List String :=
  (outer.flatMap fun o => inner.filterMap (unify? o)).eraseDups

/-- The position of the first wildcard that covers a name. -/
def coveringWildcard? (entries : List String) (name : String) : Option Nat :=
  entries.findIdx? fun entry => Glob.isWildcard entry && Glob.covers entry name

/-! ### What a list selects -/

/-- An entry selects a name if it is the name, or a wildcard that covers it. -/
def Picks (entry name : String) : Prop :=
  entry = name ∨ Glob.isWildcard entry = true ∧ Glob.covers entry name = true

instance (entry name : String) : Decidable (Picks entry name) :=
  inferInstanceAs (Decidable (_ ∨ _))

/-- A list selects what one of its entries selects. -/
def Selects (entries : List String) (name : String) : Prop :=
  ∃ entry ∈ entries, Picks entry name

instance (entries : List String) (name : String) : Decidable (Selects entries name) :=
  inferInstanceAs (Decidable (∃ entry ∈ entries, _))

/-- An entry is a wildcard that covers a name, and none of those before it is. -/
structure FirstCovering (before : List String) (entry name : String) : Prop where
  isWildcard : Glob.isWildcard entry = true
  covers : Glob.covers entry name = true
  none_before {earlier : String} (h : earlier ∈ before)
    (hwildcard : Glob.isWildcard earlier = true) : Glob.covers earlier name = false

variable {entries : List String} {name : String} {position : Nat}

theorem coveringWildcard?_eq_none_iff : coveringWildcard? entries name = none ↔
    ∀ entry ∈ entries, Glob.isWildcard entry = true → Glob.covers entry name = false := by
  simp only [coveringWildcard?, List.findIdx?_eq_none_iff, Bool.and_eq_false_imp]

/-- What is found is the position of the first wildcard that covers the name. -/
theorem coveringWildcard?_eq_some_iff : coveringWildcard? entries name = some position ↔
    ∃ before entry after, entries = before ++ entry :: after ∧ before.length = position ∧
      FirstCovering before entry name := by
  constructor
  · intro h
    obtain ⟨hlt, hentry, hbefore⟩ := List.findIdx?_eq_some_iff_getElem.mp h
    obtain ⟨hwildcard, hcovers⟩ := Bool.and_eq_true_iff.mp hentry
    refine ⟨entries.take position, entries[position], entries.drop (position + 1), ?_,
      List.length_take_of_le (Nat.le_of_lt hlt), hwildcard, hcovers, ?_⟩
    · rw [List.getElem_cons_drop, List.take_append_drop]
    · intro earlier hearlier
      obtain ⟨i, hi, rfl⟩ := List.mem_take_iff_getElem.mp hearlier
      have hmisses := hbefore i (Nat.lt_of_lt_of_le hi (Nat.min_le_left _ _))
      exact Bool.and_eq_false_imp.mp (Bool.not_eq_true _ ▸ hmisses)
  · rintro ⟨before, entry, after, rfl, rfl, h⟩
    have hbefore : coveringWildcard? before name = none :=
      coveringWildcard?_eq_none_iff.mpr fun _ => h.none_before
    rw [coveringWildcard?] at hbefore ⊢
    rw [List.findIdx?_append, hbefore, List.findIdx?_cons, h.isWildcard, h.covers]
    simp

/-- A list selects a name that it has, or that a wildcard is found for. -/
theorem selects_iff : Selects entries name ↔
    name ∈ entries ∨ (coveringWildcard? entries name).isSome = true := by
  cases hfound : coveringWildcard? entries name with
  | none =>
      have hnone := coveringWildcard?_eq_none_iff.mp hfound
      simp only [Option.isSome_none, Bool.false_eq_true, or_false]
      constructor
      · rintro ⟨entry, hentry, rfl | ⟨hwildcard, hcovers⟩⟩
        · exact hentry
        · rw [hnone entry hentry hwildcard] at hcovers
          cases hcovers
      · exact fun hname => ⟨name, hname, .inl rfl⟩
  | some position =>
      obtain ⟨before, entry, after, rfl, _, hentry⟩ := coveringWildcard?_eq_some_iff.mp hfound
      refine iff_of_true ⟨entry, ?_, .inr ⟨hentry.isWildcard, hentry.covers⟩⟩ (.inr rfl)
      exact List.mem_append_right before List.mem_cons_self

end Columns

end FlatSelect
