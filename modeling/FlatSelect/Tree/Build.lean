import FlatSelect.Tree.Subtree

/-!
# Building trees

A tree is built from an expression that makes sense, and rebuilt without its dead nodes by
`Tree.compact`. Both number the nodes from 0 in postorder: the children from left to right, then
the node. Copying a subtree into another tree numbers the copy in the same way, after the nodes
that are there.
-/

namespace FlatSelect

namespace Tree

mutual
/-- Adds the nodes of an expression. The answer is the number of its top. -/
def plant (t : Tree) : Expr → NodeId × Tree
  | .node kind value children =>
    let (slots, t) := t.plantAll children
    t.push kind value slots
/-- Adds the nodes of several expressions, from left to right. -/
def plantAll (t : Tree) : List Expr → List (Option NodeId) × Tree
  | [] => ([], t)
  | e :: es =>
    let (id, t) := t.plant e
    let (ids, t) := t.plantAll es
    (some id :: ids, t)
end

mutual
/-- Adds a copy of a subtree, with its vacant slots. The answer is the number of its top. -/
def graft (t : Tree) : Subtree → NodeId × Tree
  | .node _ kind value slots =>
    let (copies, t) := t.graftAll slots
    t.push kind value copies
/-- Adds copies of what stands in several slots, from left to right. -/
def graftAll (t : Tree) : List (Option Subtree) → List (Option NodeId) × Tree
  | [] => ([], t)
  | none :: rest =>
    let (ids, t) := t.graftAll rest
    (none :: ids, t)
  | some s :: rest =>
    let (id, t) := t.graft s
    let (ids, t) := t.graftAll rest
    (some id :: ids, t)
end

/-- The tree of an expression, if the expression makes sense. -/
def ofExpr (e : Expr) : Except Error Tree :=
  match e.check with
  | .error cause => .error (.malformedTree cause)
  | .ok () =>
    let (root, t) := empty.plant e
    .ok { t with root := root }

/-- The same tree without its dead nodes. Numbers change. -/
def compact (t : Tree) : Tree :=
  let (root, fresh) := empty.graft (t.subtree t.root)
  { fresh with root := root }

end Tree

end FlatSelect
