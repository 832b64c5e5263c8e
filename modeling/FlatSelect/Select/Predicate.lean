import FlatSelect.Tree.Subtree

/-!
# Predicates as text

A predicate is printed with all its parentheses: a leaf as `(leaf)`, a negation as `(NOT operand)`
and any other operator as `(left OP right)`. The texts of leaves are not quoted.
-/

namespace FlatSelect

namespace Predicate

/-- The text of a leaf. -/
def leaf (text : String) : String :=
  "(" ++ text ++ ")"

/-- The text of a negation. -/
def negation (operand : String) : String :=
  "(NOT " ++ operand ++ ")"

/-- The text of a binary operator. -/
def application (operator left right : String) : String :=
  "(" ++ left ++ " " ++ operator ++ " " ++ right ++ ")"

/-- The text of a constant in a predicate, which has to be a name. -/
def constant : Option Value → Except Error String
  | some (.name text) => .ok (leaf text)
  | some other => .error (.malformedTree (.predicateLeaf other))
  | none => .error (.malformedTree .constantWithoutValue)

end Predicate

namespace Subtree

/-- The text of a predicate. -/
def predicateText : Subtree → Except Error String
  | .node _ .constant value _ => Predicate.constant value
  | .node _ .not _ (some operand :: _) => operand.predicateText.map Predicate.negation
  | .node _ .not _ _ => .error (.malformedTree (.vacantSlot .not 0))
  | .node _ kind _ slots =>
    match kind.sqlOperator, slots with
    | none, _ => .error (.notCanonical (.inPredicate kind))
    | some operator, some left :: some right :: _ => do
      let left ← left.predicateText
      let right ← right.predicateText
      return Predicate.application operator left right
    | some _, some left :: _ => do
      let _ ← left.predicateText
      .error (.malformedTree (.vacantSlot kind 1))
    | some _, _ => .error (.malformedTree (.vacantSlot kind 0))
termination_by structural s => s

end Subtree

end FlatSelect
