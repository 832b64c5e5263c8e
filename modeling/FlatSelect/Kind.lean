/-!
# Kinds of query nodes

A query is a tree of operators of relational algebra with constants at its leaves. Here are the
kinds of its nodes, in the fixed order in which sets of them are listed, with the few facts about
a kind that the rest of the library reads: its name, how many children it owns, and its role.

The name of a kind is its identity in every text that the library reads or writes, and no two
kinds share one (`Kind.ofName?_name`).
-/

namespace FlatSelect

/-- The operator at a node. -/
inductive Kind where
  /-- The root of a query: the name of its result, and its body. -/
  | assign
  /-- One column renamed: the pair of names, and the operand. -/
  | rename
  /-- A branch of a join with a name of its own: the alias, and the relation. -/
  | renameAll
  /-- A derived column: its alias and source, and the operand. -/
  | extraColumn
  /-- The output restricted to some columns: their list, and the operand. -/
  | projection
  /-- A selection of rows: the predicate, and the operand. -/
  | condition
  | and
  | or
  | not
  | equals
  | notEqual
  | less
  | greater
  | lessEq
  | greaterEq
  /-- A stored relation: its name. -/
  | input1
  /-- A join: its left and its right branch. -/
  | input2
  /-- A leaf that holds a value. -/
  | constant
deriving DecidableEq, Repr

namespace Kind

/-- Every kind, in the order in which sets of kinds are listed. -/
def all : List Kind :=
  [.assign, .rename, .renameAll, .extraColumn, .projection, .condition, .and, .or, .not, .equals,
    .notEqual, .less, .greater, .lessEq, .greaterEq, .input1, .input2, .constant]

theorem mem_all (kind : Kind) : kind ∈ all := by
  cases kind <;> decide

theorem nodup_all : all.Nodup := by
  decide

/-- The position of a kind in the list of all of them. -/
def position (kind : Kind) : Nat :=
  all.idxOf kind

/-- The word for a kind in queries, settings, outlines and messages. -/
def name : Kind → String
  | assign => "assign"
  | rename => "rename"
  | renameAll => "rename_all"
  | extraColumn => "extra_column"
  | projection => "projection"
  | condition => "condition"
  | and => "and"
  | or => "or"
  | not => "not"
  | equals => "equals"
  | notEqual => "not_equal"
  | less => "less"
  | greater => "greater"
  | lessEq => "less_eq"
  | greaterEq => "greater_eq"
  | input1 => "input1"
  | input2 => "input2"
  | constant => "constant"

/-- The kind with a given name. Names are compared exactly. -/
def ofName? (word : String) : Option Kind :=
  all.find? (·.name = word)

@[simp] theorem ofName?_name (kind : Kind) : ofName? kind.name = some kind := by
  cases kind <;> decide

/-- The number of children that a node of this kind owns. -/
def arity : Kind → Nat
  | constant => 0
  | not | input1 => 1
  | _ => 2

/-- The connectives and comparisons that predicates are built of. -/
def isBoolean : Kind → Bool
  | and | or | not | equals | notEqual | less | greater | lessEq | greaterEq => true
  | _ => false

/-- The kinds that bring rows in. -/
def isInput : Kind → Bool
  | input1 | input2 => true
  | _ => false

/-- The kinds stacked upon a relation: each has its parameter in slot 0 and, in slot 1, the operand
that it can be lifted off. -/
def hasOperand : Kind → Bool
  | rename | extraColumn | projection | condition => true
  | _ => false

/-- The infix operator that a binary predicate node is printed with. -/
def sqlOperator : Kind → Option String
  | and => some "AND"
  | or => some "OR"
  | equals => some "="
  | notEqual => some "<>"
  | less => some "<"
  | greater => some ">"
  | lessEq => some "<="
  | greaterEq => some ">="
  | _ => none

end Kind

end FlatSelect
