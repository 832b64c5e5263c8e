import FlatSelect.Proofs.Bare

/-!
# The shape of flat selects

The grammar says slot by slot which kinds may stand there. What a whole query looks like that has no
deviation is said here from the top down (`Expr.IsFlatSelect`): renames upon derived columns upon a
projection upon a condition, of which any may be missing, upon a stored relation or a join of names
and aliased relations. Nonterminal by nonterminal, what is made in this way has no deviation
(`Expr.IsFlatSelect.fits`).
-/

namespace FlatSelect

namespace Expr

/-- A tree of connectives and comparisons with leaves of any value. -/
inductive IsPredicate : Expr → Prop
  | leaf (value : Value) : IsPredicate (constant value)
  | not {operand : Expr} (h : IsPredicate operand) : IsPredicate operand.not
  | binary {kind : Kind} {left right : Expr} (infixed : kind.sqlOperator.isSome = true)
    (hleft : IsPredicate left) (hright : IsPredicate right) : IsPredicate (op kind [left, right])

/-- What a branch with an alias stands on. -/
inductive IsRelation : Expr → Prop
  | leaf (value : Value) : IsRelation (constant value)
  | stored (relation : Value) : IsRelation (op .input1 [constant relation])

/-- A branch of a join. -/
inductive IsBranch : Expr → Prop
  | leaf (value : Value) : IsBranch (constant value)
  | aliased (asName : Value) {relation : Expr} (h : IsRelation relation) :
    IsBranch (op .renameAll [constant asName, relation])

/-- Where the rows come from. -/
inductive IsSource : Expr → Prop
  | stored (relation : Value) : IsSource (op .input1 [constant relation])
  | joined {left right : Expr} (hleft : IsBranch left) (hright : IsBranch right) :
    IsSource (input2 left right)

/-- Any number of operators of one kind, given by their parameters, the outermost first. -/
def stacked (kind : Kind) (parameters : List Value) (operand : Expr) : Expr :=
  parameters.foldr (fun parameter below => op kind [constant parameter, below]) operand

/-- The rows that satisfy a predicate, if there is one. -/
def filtered (predicate : Option Expr) (operand : Expr) : Expr :=
  predicate.elim operand fun p => condition p operand

/-- A query with its operators in the order of a flat select. -/
def IsFlatSelect (e : Expr) : Prop :=
  ∃ (target : Value) (renames derived : List Value) (projection : Option Value)
    (predicate : Option Expr) (source : Expr),
    (∀ p ∈ predicate, p.IsPredicate) ∧ source.IsSource ∧
      e = op .assign [constant target, stacked .rename renames <| stacked .extraColumn derived <|
        stacked .projection projection.toList <| filtered predicate source]

/-- There is no deviation where one of the `expected` kinds has to stand. -/
def Fits (expected : KindSet) (e : Expr) : Prop :=
  e.bare.deviation? .flatSelect expected = none

variable {kind : Kind} {expected next : KindSet} {e first second operand : Expr}

theorem fits_constant {value : Value} :
    (constant value).Fits expected ↔ expected.contains .constant = true := by
  simp [Fits, constant, bare, bareAll, Subtree.deviation?, Subtree.deviationIn?]

theorem fits_op_one : (op kind [operand]).Fits expected ↔ expected.contains kind = true ∧
    operand.Fits (Grammar.flatSelect.childKinds kind 0) := by
  cases hkind : expected.contains kind <;>
    simp [Fits, op, bare, bareAll, Subtree.deviation?, Subtree.deviationIn?, hkind]

theorem fits_op_two : (op kind [first, second]).Fits expected ↔ expected.contains kind = true ∧
    first.Fits (Grammar.flatSelect.childKinds kind 0) ∧
    second.Fits (Grammar.flatSelect.childKinds kind 1) := by
  cases hkind : expected.contains kind <;>
    simp [Fits, op, bare, bareAll, Subtree.deviation?, Subtree.deviationIn?, hkind]

theorem Fits.mono (h : e.Fits expected)
    (hnext : ∀ kind, expected.contains kind = true → next.contains kind = true) : e.Fits next :=
  Subtree.deviation?_of_contains h (hnext _ (Subtree.contains_of_deviation? h))

/-! ### Flat selects have no deviation -/

theorem IsPredicate.fits {p : Expr} (h : p.IsPredicate) : p.Fits .predicates := by
  induction h with
  | leaf value => exact fits_constant.mpr rfl
  | not _ ih => exact fits_op_one.mpr ⟨rfl, ih⟩
  | @binary kind _ _ infixed _ _ ihl ihr =>
      refine fits_op_two.mpr ?_
      cases kind <;> first | exact ⟨rfl, ihl, ihr⟩ | cases infixed

/-- Nothing is wrong with a predicate, whatever its leaves are. -/
theorem IsPredicate.check_eq_ok {p : Expr} (h : p.IsPredicate) : p.check = .ok () := by
  induction h with
  | leaf value => rfl
  | not _ ih =>
      simp only [Expr.not, op, check, checkAll, ih]
      rfl
  | @binary kind _ _ infixed _ _ ihl ihr =>
      simp only [op, check, checkAll, ihl, ihr]
      cases kind <;> first | rfl | cases infixed

theorem IsRelation.fits (h : e.IsRelation) : e.Fits (.ofList [.constant, .input1]) := by
  cases h with
  | leaf value => exact fits_constant.mpr rfl
  | stored relation => exact fits_op_one.mpr ⟨rfl, fits_constant.mpr rfl⟩

theorem IsBranch.fits (h : e.IsBranch) : e.Fits Grammar.branches := by
  cases h with
  | leaf value => exact fits_constant.mpr rfl
  | aliased asName hrelation =>
      exact fits_op_two.mpr ⟨rfl, fits_constant.mpr rfl, hrelation.fits⟩

theorem IsSource.fits (h : e.IsSource) : e.Fits .inputs := by
  cases h with
  | stored relation => exact fits_op_one.mpr ⟨rfl, fits_constant.mpr rfl⟩
  | joined hleft hright => exact fits_op_two.mpr ⟨rfl, hleft.fits, hright.fits⟩

theorem fits_filtered {predicate : Option Expr} (hpredicate : ∀ p ∈ predicate, p.IsPredicate)
    (hsource : operand.IsSource) : (filtered predicate operand).Fits Grammar.belowProjection := by
  cases predicate with
  | none => exact hsource.fits.mono fun kind => by cases kind <;> decide
  | some p => exact fits_op_two.mpr ⟨rfl, (hpredicate p rfl).fits, hsource.fits⟩

/-- Where operators of a kind may stand upon each other, any number of them may. -/
theorem fits_stacked (kind : Kind)
    (hconstant : (Grammar.flatSelect.childKinds kind 0).contains .constant = true)
    (htop : (Grammar.flatSelect.childKinds kind 1).contains kind = true)
    (h : operand.Fits (Grammar.flatSelect.childKinds kind 1)) (parameters : List Value) :
    (stacked kind parameters operand).Fits (Grammar.flatSelect.childKinds kind 1) := by
  induction parameters with
  | nil => exact h
  | cons parameter rest ih => exact fits_op_two.mpr ⟨htop, fits_constant.mpr hconstant, ih⟩

theorem fits_projection (projection : Option Value) (h : operand.Fits Grammar.belowProjection) :
    (stacked .projection projection.toList operand).Fits Grammar.belowDerived := by
  cases projection with
  | none => exact h.mono fun kind => by cases kind <;> decide
  | some entries => exact fits_op_two.mpr ⟨rfl, fits_constant.mpr rfl, h⟩

theorem IsFlatSelect.fits (h : e.IsFlatSelect) : e.Fits (.ofList [.assign]) := by
  obtain ⟨target, renames, derived, projection, predicate, source, hpredicate, hsource, rfl⟩ := h
  have hbelow := fits_projection projection (fits_filtered hpredicate hsource)
  have hderived : Fits Grammar.belowDerived _ := fits_stacked .extraColumn rfl rfl hbelow derived
  have hrenames : Fits Grammar.stack _ := fits_stacked .rename rfl rfl
    (hderived.mono fun kind => by cases kind <;> decide) renames
  exact fits_op_two.mpr ⟨rfl, fits_constant.mpr rfl, hrenames⟩

end Expr

end FlatSelect
