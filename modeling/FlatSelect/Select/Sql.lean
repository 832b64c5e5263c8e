import FlatSelect.Deviation
import FlatSelect.Select

/-!
# Selects as SQL

A select is printed on one line:

    SELECT columns INTO target FROM relation [WHERE predicate]

The columns are those of the projection, then the derived ones, each under the name that the
renames give it. A select without a projection has the one column `*`.
-/

namespace FlatSelect

namespace OutputColumn

/-- The name that a column goes by. -/
def visibleName (c : OutputColumn) : String :=
  c.asName.getD c.expr

def sql (c : OutputColumn) : String :=
  c.asName.elim c.expr fun asName => c.expr ++ " AS " ++ asName

/-- The first column that goes by `old` goes by `new`. -/
def renameFirst (new old : String) : List OutputColumn → List OutputColumn
  | [] => []
  | c :: cs =>
    if c.visibleName = old then { c with asName := some new } :: cs
    else c :: renameFirst new old cs

end OutputColumn

namespace JoinBranch

/-- A branch is printed with its alias, where aliases are wanted and it is not the relation's own
name. -/
def sql (withAlias : Bool) (b : JoinBranch) : String :=
  match b.asName with
  | some asName =>
    if withAlias && asName ≠ b.relation then b.relation ++ " AS " ++ asName else b.relation
  | none => b.relation

end JoinBranch

namespace Relation

def sql (withAlias : Bool) : Relation → String
  | table name => name
  | join left right => left.sql withAlias ++ " JOIN " ++ right.sql withAlias

end Relation

namespace Select

/-- The columns before any rename: those projected, then those derived. -/
def sourceColumns (entries : List String) (derived : List (String × String)) : List OutputColumn :=
  entries.map (fun entry => ⟨entry, none⟩) ++
    derived.map fun (asName, source) => ⟨source, some asName⟩

/-- The columns of the result. Renames apply from the innermost to the outermost, each to the first
column that goes by the old name. -/
def outputColumns (s : Select) : List OutputColumn :=
  match s.projection with
  | none => [⟨"*", none⟩]
  | some entries =>
    s.renames.foldr (fun (new, old) columns => OutputColumn.renameFirst new old columns)
      (sourceColumns entries s.derived)

/-- The statement. -/
def sql (s : Select) (aliasBranches : Bool) : String :=
  "SELECT " ++ ", ".intercalate (s.outputColumns.map OutputColumn.sql) ++
    " INTO " ++ s.target ++
    " FROM " ++ s.relation.sql aliasBranches ++
    s.condition.elim "" (" WHERE " ++ ·)

end Select

namespace Tree

/-- The statement that a tree stands for, if it conforms to the grammar. -/
def sql (t : Tree) (g : Grammar) (roots : KindSet) (aliasBranches : Bool) : Except Error String :=
  match t.deviation? g roots with
  | some node => .error (.notCanonical (.deviation (t.kind node) node))
  | none => t.select.map (Select.sql · aliasBranches)

end Tree

end FlatSelect
