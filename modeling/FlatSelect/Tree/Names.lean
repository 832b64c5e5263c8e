import FlatSelect.Column.List
import FlatSelect.Text.Alphabetic
import FlatSelect.Tree.Subtree

/-!
# Names in predicates

The leaves of a predicate are names: columns, numbers, quoted texts and keywords. When a node is
lifted past a predicate, or a predicate past a join branch, the names below it change. Only values
of leaves do, and every leaf is visited once for each way that leads to it.
-/

namespace FlatSelect

namespace Text

/-- Whether two texts are equal but for the case of ASCII letters. -/
def sameWord (a b : String) : Bool :=
  a.toList.map Char.toLower = b.toList.map Char.toLower

/-- Whether the text of a leaf names a column. A column starts with a letter or an underscore;
numbers, quoted texts and the keywords for null and the truth values are literals. -/
def isColumnReference (text : String) : Bool :=
  (text.toList.head?.any fun c => isAlphabetic c || c = '_') &&
    !(["null", "true", "false"].any (sameWord text))

end Text

namespace Tree

/-- Changes the name at one node, and counts it, if `f` has a new one for it. -/
def renameAt (f : String → Option String) (counted : Nat × Tree) (id : NodeId) : Nat × Tree :=
  match (counted.2.value id).bind (·.mapName? f) with
  | none => counted
  | some value => (counted.1 + 1, counted.2.setValue id value)

/-- Changes the names below `top` for which `f` has a new one. The answer says how many. -/
def renameBelow (t : Tree) (top : NodeId) (f : String → Option String) : Nat × Tree :=
  (t.subtree top).ids.foldl (renameAt f) (0, t)

/-- Puts `new` for every name below `top` that is `old`. -/
def replaceNames (t : Tree) (top : NodeId) (old new : String) : Nat × Tree :=
  t.renameBelow top fun text => if text = old then some new else none

/-- Puts the alias of a branch before every column that is named below `top`. -/
def qualifyNames (t : Tree) (top : NodeId) (asName : String) : Nat × Tree :=
  t.renameBelow top fun text =>
    if Text.isColumnReference text then some (Columns.qualify asName text) else none

/-- Whether a name stands below `top`. -/
def mentions (t : Tree) (top : NodeId) (name : String) : Bool :=
  (t.subtree top).preorder.any fun s => s.value = some (.name name)

end Tree

end FlatSelect
