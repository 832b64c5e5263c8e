import FlatSelect.Tree.Build
import FlatSelect.Tree.Edit

/-!
# Inlining views

A view is a query whose result has a name. Inlining it into a target puts the view's body wherever
the target reads a relation of that name. There are three ways to read one: a stored relation gives
way to the body as a whole, a join branch with an alias keeps the alias and gets the body for its
relation, and a bare name as a join branch becomes a branch with that name for its alias.

The sites are found before any of them is replaced, so a body is never searched, and every site
gets a copy of its own.
-/

namespace FlatSelect

/-- A place where a target reads a relation. -/
inductive Site where
  /-- A stored relation. -/
  | relation (input : NodeId)
  /-- A join branch with an alias over a name. -/
  | aliasedBranch (branch : NodeId)
  /-- A join branch that is a name. -/
  | bareBranch (leaf : NodeId)
deriving DecidableEq, Repr

namespace Subtree

/-- How a join reads a relation through one of its branches. -/
def branchSite? (name : String) (branch : Subtree) : Option Site :=
  match branch.kind with
  | .constant => if branch.value = some (.name name) then some (.bareBranch branch.id) else none
  | .renameAll =>
    if branch.slotValue 1 = some (.name name) then some (.aliasedBranch branch.id) else none
  | _ => none

/-- The sites at a node: those that it reads `name` at itself. -/
def sitesAt (name : String) (s : Subtree) : List Site :=
  match s.kind with
  | .input1 => if s.slotValue 0 = some (.name name) then [.relation s.id] else []
  | .input2 => s.slots.filterMap fun slot => slot.bind (branchSite? name)
  | _ => []

end Subtree

namespace Tree

/-- The sites of a tree, in the preorder of the nodes that read. -/
def sites (t : Tree) (name : String) : List Site :=
  (t.subtree t.root).preorder.flatMap (Subtree.sitesAt name)

/-- Puts a copy of a view's body at a site. -/
def inlineAt (name : String) (body : Subtree) (t : Tree) (site : Site) : Tree :=
  let (copy, t) := t.graft body
  match site with
  | .relation input => (t.replaceNode input copy).removeSubtree input
  | .aliasedBranch branch =>
    let (relation, t) := t.takeChild ⟨branch, 1⟩
    (relation.elim t t.removeSubtree).setChild ⟨branch, 1⟩ copy
  | .bareBranch leaf =>
    let (asName, t) := t.push .constant (some (.name name)) []
    let (branch, t) := t.push .renameAll none [some asName, some copy]
    (t.replaceNode leaf branch).removeSubtree leaf

/-- The name and the body of a view. -/
def asView (view : Tree) : Except Malformation (String × Subtree) :=
  let top := view.subtree view.root
  if top.kind ≠ .assign then .error (.viewRoot top.kind)
  else
    match (top.slotValue 0).bind Value.asName?, top.child 1 with
    | none, _ => .error .viewWithoutName
    | some name, none => .error (.viewWithoutBody name)
    | some name, some body => .ok (name, body)

end Tree

namespace Edit

/-- Inlines a view wherever the target reads it. The answer says at how many sites; where there is
none, the reference is unresolved. -/
def inline (view : Tree) : Edit Nat := do
  match view.asView with
  | .error cause => throw (.malformedTree cause)
  | .ok (name, body) =>
    match (← get).sites name with
    | [] => throw (.unresolvedReference name)
    | sites =>
      modify fun target => sites.foldl (Tree.inlineAt name body) target
      return sites.length

/-- Inlines views, one after the other. -/
def inlineAll : List Tree → Edit Unit
  | [] => return ()
  | view :: views => do
    let _ ← inline view
    inlineAll views

end Edit

end FlatSelect
