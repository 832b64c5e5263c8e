import FlatSelect.Select.Predicate

/-!
# Flat selects

A tree of the flat form is read from the root down, clause by clause: the target, the renames, the
derived columns, the projection, the condition, and the relation. Reading does not ask whether the
tree conforms to a grammar; it fails where the next clause is not there.
-/

namespace FlatSelect

/-- One side of a join. -/
structure JoinBranch where
  relation : String
  asName : Option String
deriving DecidableEq, Repr

/-- Where the rows of a select come from. -/
inductive Relation where
  | table (name : String)
  | join (left right : JoinBranch)
deriving DecidableEq, Repr

/-- The clauses of one flat select. -/
structure Select where
  target : String
  /-- The new and the old names, the outermost rename first. -/
  renames : List (String × String)
  /-- The aliases and the sources, the outermost derived column first. -/
  derived : List (String × String)
  projection : Option (List String)
  /-- The text of the predicate. -/
  condition : Option String
  relation : Relation
deriving DecidableEq, Repr

/-- A column of the result: an expression, and its name where that is another. -/
structure OutputColumn where
  expr : String
  asName : Option String
deriving DecidableEq, Repr

namespace Subtree

/-- The operand of a node that has one. -/
def operand (s : Subtree) : Except Error Subtree :=
  match s.child 1 with
  | some below => .ok below
  | none => .error (.malformedTree (.vacantSlot s.kind 1))

/-- The name in a slot. -/
def nameAt (s : Subtree) (slot : Nat) : Except Error String :=
  match s.slotValue slot with
  | some (.name text) => .ok text
  | _ => .error (.malformedTree (.notName s.kind slot))

/-- The new and the old name of a rename. -/
def renamePair (s : Subtree) : Except Error (String × String) :=
  match s.slotValue 0 with
  | some (.rename new old) => .ok (new, old)
  | _ => .error (.malformedTree .noRenamePair)

/-- The alias and the source of a derived column. -/
def derivedColumn (s : Subtree) : Except Error (String × String) :=
  match s.slotValue 0 with
  | some (.derived asName source) => .ok (asName, source)
  | _ => .error (.malformedTree .noDerivedColumn)

/-- The entries of a projection. -/
def columns (s : Subtree) : Except Error (List String) :=
  match s.slotValue 0 with
  | some (.columns entries) => .ok entries
  | _ => .error (.malformedTree .noColumnList)

/-- The text of the predicate of a condition. -/
def conditionText (s : Subtree) : Except Error String :=
  match s.child 0 with
  | some top => top.predicateText
  | none => .error (.malformedTree .noPredicate)

/-- Reads the operators of one kind off the top of a stack, the outermost first. The answer also
has what is below them. -/
def peel (kind : Kind) (clause : Subtree → Except Error α) :
    Subtree → Except Error (List α × Subtree)
  | .node id top value slots =>
    if top = kind then do
      let first ← clause (.node id top value slots)
      match slots with
      | _ :: some below :: _ => do
        let (clauses, rest) ← peel kind clause below
        return (first :: clauses, rest)
      | _ => .error (.malformedTree (.vacantSlot kind 1))
    else
      .ok ([], .node id top value slots)
termination_by structural s => s

/-- Reads an operator that may be on the top of a stack, and what is below it. -/
def peelOne (kind : Kind) (clause : Subtree → Except Error α) (s : Subtree) :
    Except Error (Option α × Subtree) :=
  if s.kind = kind then do
    let found ← clause s
    let below ← s.operand
    return (some found, below)
  else
    .ok (none, s)

/-- Reads one side of a join. -/
def joinBranch (s : Subtree) : Except Error JoinBranch :=
  match s.kind with
  | .constant =>
    match s.value.bind Value.asName? with
    | some name => .ok ⟨name, none⟩
    | none => .error (.malformedTree .branchNotName)
  | .renameAll => do
    let asName ← s.nameAt 0
    let inner ← s.operand
    match inner.kind with
    | .constant => return ⟨← s.nameAt 1, some asName⟩
    | .input1 => return ⟨← inner.nameAt 0, some asName⟩
    | other => .error (.notCanonical (.inBranch other))
  | other => .error (.notCanonical (.asBranch other))

/-- Reads the side of a join in one of its slots. -/
def joinBranchAt (s : Subtree) (slot : Nat) : Except Error JoinBranch :=
  match s.child slot with
  | some branch => branch.joinBranch
  | none => .error (.malformedTree (.vacantSlot s.kind slot))

/-- Reads where the rows come from. -/
def relation (s : Subtree) : Except Error Relation :=
  match s.kind with
  | .input1 => return .table (← s.nameAt 0)
  | .input2 => return .join (← s.joinBranchAt 0) (← s.joinBranchAt 1)
  | other => .error (.notCanonical (.notRelation other))

/-- Reads the clauses of a select. -/
def select (s : Subtree) : Except Error Select := do
  if s.kind ≠ .assign then
    .error (.notCanonical (.root s.kind))
  else
    let target ← s.nameAt 0
    let body ← s.operand
    let (renames, body) ← body.peel .rename renamePair
    let (derived, body) ← body.peel .extraColumn derivedColumn
    let (projection, body) ← body.peelOne .projection columns
    let (condition, body) ← body.peelOne .condition conditionText
    let relation ← body.relation
    return { target, renames, derived, projection, condition, relation }

end Subtree

namespace Tree

/-- Reads the clauses of the select that a tree stands for. -/
def select (t : Tree) : Except Error Select :=
  (t.subtree t.root).select

end Tree

end FlatSelect
