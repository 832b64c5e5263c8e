import FlatSelect.Transfer
import FlatSelect.Tree.Build

/-!
# Queries as layers

Most queries that one writes are stacks: renames, derived columns, projections and conditions, layer
upon layer, over a stored relation or over a join, whose branches may have layers of their own. A
flat select is such a stack as well, with its layers in a fixed order.

`Query.flatten` reads the layers once, from the outermost to the innermost, and keeps the clauses of
the flat select that it has found so far. No tree is searched and nothing is moved. It is meant to
be what a normalization of the query comes to.
-/

namespace FlatSelect

/-- A predicate of operators and names. -/
inductive Formula where
  | name (text : String)
  | not (operand : Formula)
  | binary (kind : Kind) (infixed : kind.sqlOperator.isSome = true) (left right : Formula)

namespace Formula

def toExpr : Formula → Expr
  | name text => .name text
  | not operand => .not operand.toExpr
  | binary kind _ left right => .op kind [left.toExpr, right.toExpr]

/-- The names at the leaves, from left to right. -/
def leaves : Formula → List String
  | name text => [text]
  | not operand => operand.leaves
  | binary _ _ left right => left.leaves ++ right.leaves

/-- Changes every name at a leaf. -/
def map (f : String → String) : Formula → Formula
  | name text => .name (f text)
  | not operand => .not (operand.map f)
  | binary kind infixed left right => .binary kind infixed (left.map f) (right.map f)

/-- Puts `new` for every name that is `old`. -/
def replace (old new : String) (p : Formula) : Formula :=
  p.map fun text => if text = old then new else text

/-- Both of two predicates. -/
def both (left right : Formula) : Formula :=
  .binary .and rfl left right

end Formula

/-- An operator upon a relation. -/
inductive Layer where
  | rename (new old : String)
  | extraColumn (asName source : String)
  | projection (entries : List String)
  | condition (predicate : Formula)

namespace Layer

def kind : Layer → Kind
  | rename _ _ => .rename
  | extraColumn _ _ => .extraColumn
  | projection _ => .projection
  | condition _ => .condition

/-- The expression of a layer over an operand. -/
def wrap : Layer → Expr → Expr
  | rename new old, operand => .rename new old operand
  | extraColumn asName source, operand => .extraColumn asName source operand
  | projection entries, operand => .projection entries operand
  | condition predicate, operand => .condition predicate.toExpr operand

/-- The expression of several layers, the outermost first. -/
def stack (layers : List Layer) (operand : Expr) : Expr :=
  layers.foldr wrap operand

def renames (pairs : List (String × String)) : List Layer :=
  pairs.map fun (new, old) => .rename new old

def extraColumns (columns : List (String × String)) : List Layer :=
  columns.map fun (asName, source) => .extraColumn asName source

def projections (entries : Option (List String)) : List Layer :=
  entries.toList.map .projection

def conditions (predicate : Option Formula) : List Layer :=
  predicate.toList.map .condition

section

variable {layer : Layer}

theorem kind_of_mem_renames {pairs : List (String × String)} (h : layer ∈ renames pairs) :
    layer.kind = .rename := by
  obtain ⟨_, _, rfl⟩ := List.mem_map.mp h
  rfl

theorem kind_of_mem_extraColumns {columns : List (String × String)}
    (h : layer ∈ extraColumns columns) : layer.kind = .extraColumn := by
  obtain ⟨_, _, rfl⟩ := List.mem_map.mp h
  rfl

theorem kind_of_mem_projections {entries : Option (List String)} (h : layer ∈ projections entries) :
    layer.kind = .projection := by
  obtain ⟨_, _, rfl⟩ := List.mem_map.mp h
  rfl

theorem kind_of_mem_conditions {predicate : Option Formula} (h : layer ∈ conditions predicate) :
    layer.kind = .condition := by
  obtain ⟨_, _, rfl⟩ := List.mem_map.mp h
  rfl

end

/-- A layer of a join branch in the terms of the whole join: its columns say which branch they are
of, and a projection lets all columns of the other branch through. A derived column cannot leave its
branch. -/
def qualify (asName other : String) : Layer → Except Error Layer
  | rename new old => .ok (.rename (Columns.qualify asName new) (Columns.qualify asName old))
  | extraColumn _ _ => .error (.nonCanonicalizable (.noTransfer .extraColumn .renameAll))
  | projection entries =>
    .ok (.projection (entries.map (Columns.qualify asName) ++ [Columns.qualify other "*"]))
  | condition predicate => .ok (.condition (predicate.map fun text =>
    if Text.isColumnReference text then Columns.qualify asName text else text))

end Layer

/-- The relation that a join branch with an alias stands on. -/
inductive Stored where
  | name (relation : String)
  | input1 (relation : String)

def Stored.toExpr : Stored → Expr
  | name relation => .name relation
  | input1 relation => .input1 relation

/-- A branch of a join. -/
inductive Branch where
  | bare (relation : String)
  | aliased (asName : String) (layers : List Layer) (relation : Stored)

namespace Branch

def toExpr : Branch → Expr
  | bare relation => .name relation
  | aliased asName layers relation => .renameAll asName (Layer.stack layers relation.toExpr)

/-- The name that the columns of a branch are qualified with. -/
def asName : Branch → String
  | bare relation => relation
  | aliased asName _ _ => asName

def layers : Branch → List Layer
  | bare _ => []
  | aliased _ layers _ => layers

/-- A branch without its layers. -/
def stripped : Branch → Branch
  | bare relation => .bare relation
  | aliased asName _ relation => .aliased asName [] relation

end Branch

/-- What the rows of a query come from. -/
inductive Source where
  | table (relation : String)
  | join (left right : Branch)

namespace Source

def toExpr : Source → Expr
  | table relation => .input1 relation
  | join left right => .input2 left.toExpr right.toExpr

/-- A source without the layers of its branches. -/
def stripped : Source → Source
  | table relation => .table relation
  | join left right => .join left.stripped right.stripped

def layerCount : Source → Nat
  | table _ => 0
  | join left right => left.layers.length + right.layers.length

end Source

/-- Layers over a source, the outermost first. -/
structure Query where
  target : String
  layers : List Layer
  source : Source

namespace Query

def toExpr (q : Query) : Expr :=
  .assign q.target (Layer.stack q.layers q.source.toExpr)

/-- The number of layers, those of join branches included. -/
def layerCount (q : Query) : Nat :=
  q.layers.length + q.source.layerCount

end Query

/-- The clauses of a flat select that do not concern where the rows come from. -/
structure Clauses where
  /-- The new and the old names, the outermost rename first. -/
  renames : List (String × String)
  /-- The aliases and the sources, the outermost derived column first. -/
  derived : List (String × String)
  projection : Option (List String)
  condition : Option Formula

namespace Clauses

def empty : Clauses where
  renames := []
  derived := []
  projection := none
  condition := none

/-- The layers that a flat select has for its clauses. -/
def layers (c : Clauses) : List Layer :=
  Layer.renames c.renames ++ Layer.extraColumns c.derived ++ Layer.projections c.projection ++
    Layer.conditions c.condition

/-- A rename below the clauses. The predicate speaks of the old name from then on. The rename itself
is lost if there is a projection that has no use for the new name. -/
def addRename (new old : String) (c : Clauses) : Clauses :=
  let condition := c.condition.map (·.replace new old)
  let renames := c.renames ++ [(new, old)]
  let derived := c.derived.map fun (asName, source) =>
    (asName, if source = new then old else source)
  match c.projection with
  | none => { renames, derived, projection := none, condition }
  | some entries =>
    match Columns.foldRename? entries new old with
    | none => { c with condition }
    | some folded => { renames, derived, projection := some folded, condition }

/-- A derived column below the clauses. The predicate must not read it. It is lost if there is a
projection that does not select it. -/
def addDerived (asName source : String) (c : Clauses) : Except Error Clauses :=
  if c.condition.any (asName ∈ ·.leaves) then
    .error (.nonCanonicalizable (.columnRead asName))
  else
    match c.projection with
    | none => .ok { c with derived := c.derived ++ [(asName, source)] }
    | some entries =>
      let projection := some (Columns.withoutDerived entries asName)
      if Columns.selectDerived entries asName then
        .ok { c with derived := c.derived ++ [(asName, source)], projection }
      else .ok { c with projection }

/-- A projection below the clauses. Two projections select what both select. -/
def addProjection (entries : List String) (c : Clauses) : Clauses :=
  { c with projection := some (c.projection.elim entries (Columns.intersect entries)) }

/-- A condition below the clauses. Two conditions ask for both predicates. -/
def addCondition (predicate : Formula) (c : Clauses) : Clauses :=
  { c with condition := some (c.condition.elim predicate (Formula.both · predicate)) }

/-- One more layer below the clauses. -/
def add (c : Clauses) : Layer → Except Error Clauses
  | .rename new old => .ok (c.addRename new old)
  | .extraColumn asName source => c.addDerived asName source
  | .projection entries => .ok (c.addProjection entries)
  | .condition predicate => .ok (c.addCondition predicate)

/-- One more layer of a join branch below the clauses. -/
def addQualified (asName other : String) (c : Clauses) (layer : Layer) : Except Error Clauses :=
  match layer.qualify asName other with
  | .ok qualified => c.add qualified
  | .error cause => .error cause

/-- The layers of a join branch below the clauses, beside a branch of the name `other`. -/
def addBranch (other : String) (c : Clauses) : Branch → Except Error Clauses
  | .bare _ => .ok c
  | .aliased asName layers _ => layers.foldlM (addQualified asName other) c

/-- The layers of the branches of a join below the clauses, first those of the left branch. -/
def addSource (c : Clauses) : Source → Except Error Clauses
  | .table _ => .ok c
  | .join left right => do
    let c ← c.addBranch right.asName left
    c.addBranch left.asName right

end Clauses

namespace Query

/-- The clauses that the layers come to: those of the query, from the outermost to the innermost,
then those of its source. -/
def clauses (q : Query) : Except Error Clauses := do
  let c ← q.layers.foldlM Clauses.add .empty
  c.addSource q.source

/-- The flat select with given clauses. -/
def withClauses (q : Query) (c : Clauses) : Query :=
  ⟨q.target, c.layers, q.source.stripped⟩

/-- The flat select that a query comes to. -/
def flatten (q : Query) : Except Error Query :=
  q.clauses.map q.withClauses

end Query

end FlatSelect
