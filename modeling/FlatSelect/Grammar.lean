import FlatSelect.Kind.Set

/-!
# Grammars

A grammar says which kinds may stand in each slot of a node. The grammar of one flat select block
orders the operators from the root down:

    assign, rename*, extra_column*, projection?, condition?, then a relation or a join

Predicates are made of operators and leaves in any order, and a branch of a join is a name or an
alias over a relation.
-/

namespace FlatSelect

/-- For each kind that has a rule, the kinds that may stand in its slots. -/
structure Grammar where
  rule? : Kind → Option (List KindSet)

namespace Grammar

/-- The grammar without rules: nothing may stand anywhere. -/
def empty : Grammar where
  rule? _ := none

/-- The grammar with the rule of one kind replaced. -/
def withRule (g : Grammar) (kind : Kind) (slots : List KindSet) : Grammar where
  rule? k := if k = kind then some slots else g.rule? k

/-- The kinds that may stand in a slot; none where there is no rule. -/
def childKinds (g : Grammar) (kind : Kind) (slot : Nat) : KindSet :=
  (((g.rule? kind).getD [])[slot]?).getD ∅

/-- Whether a `child` may stand in `slot` of a `parent`. -/
def allows (g : Grammar) (parent : Kind) (slot : Nat) (child : Kind) : Bool :=
  (g.childKinds parent slot).contains child

/-- Grammars are compared kind by kind. -/
instance : DecidableEq Grammar := fun g h =>
  decidable_of_iff (∀ kind ∈ Kind.all, g.rule? kind = h.rule? kind) <| by
    constructor
    · intro same
      cases g
      cases h
      exact congrArg mk (funext fun kind => same kind (Kind.mem_all kind))
    · intro same kind _
      rw [same]

/-- What may stand on the body of a query or below a rename. -/
def stack : KindSet :=
  .ofList [.rename, .extraColumn, .projection, .condition] ∪ .inputs

/-- What may stand below a derived column. -/
def belowDerived : KindSet :=
  .ofList [.extraColumn, .projection, .condition] ∪ .inputs

/-- What may stand below a projection. -/
def belowProjection : KindSet :=
  .ofList [.condition] ∪ .inputs

/-- What may stand as a branch of a join. -/
def branches : KindSet :=
  .ofList [.renameAll, .constant]

/-- The grammar of one flat select block. -/
def flatSelect : Grammar where
  rule? kind :=
    match kind with
    | .assign => some [.constants, stack]
    | .rename => some [.constants, stack]
    | .extraColumn => some [.constants, belowDerived]
    | .projection => some [.constants, belowProjection]
    | .condition => some [.predicates, .inputs]
    | .input1 => some [.constants]
    | .input2 => some [branches, branches]
    | .renameAll => some [.constants, .ofList [.constant, .input1]]
    | .constant => some []
    | boolean => some (List.replicate boolean.arity .predicates)

end Grammar

end FlatSelect
