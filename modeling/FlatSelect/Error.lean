import FlatSelect.Kind
import FlatSelect.Value

/-!
# Errors

Everything that can go wrong while a query is built, normalized or printed. An error is a cause, not
a text: what the query lacks or what was asked of it in vain. The wording of every message is here
and nowhere else.

Causes come in six groups, and the groups in four classes, which say where to look: at the input,
at the lifting of deviations, at the settings, or at this library.
-/

namespace FlatSelect

/-- A numbered node of a tree. -/
abbrev NodeId := Nat

/-- How the shape of a query or the value in one of its slots is wrong. -/
inductive Malformation where
  | constantWithoutValue
  | constantWithChildren (count : Nat)
  | strayValue (kind : Kind)
  | childCount (kind : Kind) (count : Nat)
  /-- Slot 0 holds a value of another form than its kind asks for. -/
  | unfitValue (kind : Kind) (value : Value)
  /-- Slot 0 has to be a constant. -/
  | notConstant (kind : Kind)
  /-- A join branch reads a constant that is not a name. -/
  | branchRelation (value : Value)
  | noRenamePair
  | noDerivedColumn
  | noColumnList
  | noPredicate
  | noBranchAlias
  /-- There is nothing to put in the place of a node that is to be lifted. -/
  | noOperand (kind : Kind)
  | vacantSlot (kind : Kind) (slot : Nat)
  | notName (kind : Kind) (slot : Nat)
  | branchNotName
  | predicateLeaf (value : Value)
  | viewRoot (kind : Kind)
  | viewWithoutName
  | viewWithoutBody (name : String)
deriving DecidableEq, Repr

/-- Why a tree cannot be read as one flat select. -/
inductive Misplacement where
  /-- The grammar forbids the kind of a node where it stands. -/
  | deviation (kind : Kind) (node : NodeId)
  | root (kind : Kind)
  | inPredicate (kind : Kind)
  | notRelation (kind : Kind)
  | inBranch (kind : Kind)
  | asBranch (kind : Kind)
deriving DecidableEq, Repr

/-- Why a deviation cannot be lifted to a place where it is legal. -/
inductive Obstacle where
  | isRoot (kind : Kind)
  | immovable (kind parent : Kind)
  | noTransfer (kind parent : Kind)
  | pastRoot (kind : Kind)
  /-- A condition would lose sight of the derived column that it reads. -/
  | columnRead (asName : String)
  | budgetSpent (lifts : Nat)
deriving DecidableEq, Repr

/-- What is wrong with settings. -/
inductive SettingsFault where
  | noRootKinds
  | noLifts
  /-- The document is not one of settings at all. -/
  | unreadable
deriving DecidableEq, Repr

/-- States that no query leads to. -/
inductive Inconsistency where
  | slotVacantDuringLift (kind : Kind) (slot : Nat)
  | deviationLegal (kind : Kind)
deriving DecidableEq, Repr

/-- Why an operation has no result. -/
inductive Error where
  | malformedTree (cause : Malformation)
  /-- A view was to be inlined that the target does not read. -/
  | unresolvedReference (name : String)
  | notCanonical (cause : Misplacement)
  | nonCanonicalizable (cause : Obstacle)
  | invalidSettings (cause : SettingsFault)
  | internal (cause : Inconsistency)
deriving DecidableEq, Repr

/-- Where the fault lies. -/
inductive ErrorClass where
  | input
  | lifting
  | settings
  | internal
deriving DecidableEq, Repr

namespace Malformation

def message : Malformation → String
  | constantWithoutValue => "constant without a value"
  | constantWithChildren count => "constant with " ++ toString count ++ " children"
  | strayValue kind => kind.name ++ " carries a value; only constants do"
  | childCount kind count =>
    kind.name ++ " expects " ++ toString kind.arity ++ " children, got " ++ toString count
  | unfitValue kind value => kind.name ++ " slot 0 holds a " ++ value.form
  | notConstant kind => kind.name ++ " slot 0 must be a constant"
  | branchRelation value => "rename_all relation holds a " ++ value.form
  | noRenamePair => "rename without a rename pair"
  | noDerivedColumn => "extra_column without a derived column"
  | noColumnList => "projection without a column list"
  | noPredicate => "condition without a predicate"
  | noBranchAlias => "join branch without an alias"
  | noOperand kind => kind.name ++ " has a vacant operand slot"
  | vacantSlot kind slot => kind.name ++ " slot " ++ toString slot ++ " is vacant"
  | notName kind slot => kind.name ++ " slot " ++ toString slot ++ " is not a name"
  | branchNotName => "join branch is not a name"
  | predicateLeaf value => "predicate leaf holds '" ++ value.text ++ "'"
  | viewRoot kind => "view root must be assign, got " ++ kind.name
  | viewWithoutName => "view without a target name"
  | viewWithoutBody name => "view '" ++ name ++ "' has no body"

end Malformation

namespace Misplacement

def message : Misplacement → String
  | deviation kind node => kind.name ++ " at node " ++ toString node ++ " is out of place"
  | root kind => "a select needs an assign root, found " ++ kind.name
  | inPredicate kind => kind.name ++ " inside a predicate"
  | notRelation kind => "expected a relation, found " ++ kind.name
  | inBranch kind => kind.name ++ " inside a join branch"
  | asBranch kind => kind.name ++ " as a join branch"

end Misplacement

namespace Obstacle

def message : Obstacle → String
  | isRoot kind => kind.name ++ " is the root and cannot be lifted"
  | immovable kind parent => kind.name ++ " under " ++ parent.name ++ " cannot be moved"
  | noTransfer kind parent => "no rule lifts " ++ kind.name ++ " past " ++ parent.name
  | pastRoot kind => kind.name ++ " lifted past the root"
  | columnRead asName => "condition reads derived column '" ++ asName ++ "'"
  | budgetSpent lifts => "still not canonical after " ++ toString lifts ++ " lifts"

end Obstacle

namespace SettingsFault

def message : SettingsFault → String
  | noRootKinds => "root_kinds must name at least one node kind"
  | noLifts => "max_lifts must be greater than zero"
  | unreadable => "unreadable settings"

end SettingsFault

namespace Inconsistency

def message : Inconsistency → String
  | slotVacantDuringLift kind slot =>
    kind.name ++ " slot " ++ toString slot ++ " vacant during lift"
  | deviationLegal kind => "deviating " ++ kind.name ++ " reported legal by the lifter"

end Inconsistency

namespace Error

/-- The message of an error: its group, then its cause. -/
def message : Error → String
  | malformedTree cause => "malformed tree: " ++ cause.message
  | unresolvedReference name =>
    "unresolved reference: no relation named '" ++ name ++ "' in target"
  | notCanonical cause => "tree is not canonical: " ++ cause.message
  | nonCanonicalizable cause => "cannot canonicalize: " ++ cause.message
  | invalidSettings cause => "invalid configuration: " ++ cause.message
  | internal cause => "internal error: " ++ cause.message

/-- The class of an error. -/
def classOf : Error → ErrorClass
  | malformedTree _ | unresolvedReference _ | notCanonical _ => .input
  | nonCanonicalizable _ => .lifting
  | invalidSettings _ => .settings
  | internal _ => .internal

end Error

namespace ErrorClass

/-- The word that a class is reported by. -/
def name : ErrorClass → String
  | input => "INPUT"
  | lifting => "REWRITE"
  | settings => "CONFIG"
  | internal => "INTERNAL"

end ErrorClass

end FlatSelect
