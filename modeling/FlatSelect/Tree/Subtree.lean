import FlatSelect.Expr
import FlatSelect.Kind.Set
import FlatSelect.Tree.Basic

/-!
# What hangs below a node

`Tree.subtree` reads the part of a tree that can be reached from a node as one nested value, with
the numbers of its nodes and its vacant slots. It is the only reading of a tree that follows links
downwards. Listing, printing, searching and copying are all recursion on its result.
-/

namespace FlatSelect

/-- A node with all that hangs below it. -/
inductive Subtree where
  | node (id : NodeId) (kind : Kind) (value : Option Value) (slots : List (Option Subtree))

namespace Subtree

def id : Subtree → NodeId
  | .node id _ _ _ => id

def kind : Subtree → Kind
  | .node _ kind _ _ => kind

def value : Subtree → Option Value
  | .node _ _ value _ => value

def slots : Subtree → List (Option Subtree)
  | .node _ _ _ slots => slots

/-- What stands in a slot, unless the slot is vacant or there is no such slot. -/
def child (s : Subtree) (slot : Nat) : Option Subtree :=
  s.slots[slot]?.join

/-- The value of the child in a slot. -/
def slotValue (s : Subtree) (slot : Nat) : Option Value :=
  (s.child slot).bind value

mutual
/-- The nodes, each before its children, and these from slot to slot. -/
def preorder : Subtree → List Subtree
  | .node id kind value slots => .node id kind value slots :: preorderAll slots
/-- The nodes below several slots. -/
def preorderAll : List (Option Subtree) → List Subtree
  | [] => []
  | none :: rest => preorderAll rest
  | some s :: rest => s.preorder ++ preorderAll rest
end

/-- The numbers of the nodes, in preorder. -/
def ids (s : Subtree) : List NodeId :=
  s.preorder.map id

mutual
/-- The expression that a subtree stands for. Numbers are forgotten and vacant slots skipped. -/
def toExpr : Subtree → Expr
  | .node _ kind value slots => .node kind value (toExprs slots)
/-- The expressions in several slots. -/
def toExprs : List (Option Subtree) → List Expr
  | [] => []
  | none :: rest => toExprs rest
  | some s :: rest => s.toExpr :: toExprs rest
end

/-- One line of an outline: two blanks for each level, and the text. -/
def line (depth : Nat) (text : String) : String :=
  String.ofList (List.replicate (2 * depth) ' ') ++ text ++ "\n"

/-- A node as it stands in an outline: its kind, and the value of a constant. -/
def label (kind : Kind) (value : Option Value) : String :=
  value.elim kind.name fun v => kind.name ++ " " ++ v.text

mutual
/-- An outline, a line for each node and each vacant slot, indented by depth. -/
def outlineAt (depth : Nat) : Subtree → String
  | .node _ kind value slots => line depth (label kind value) ++ outlineAll (depth + 1) slots
/-- The outlines of several slots, one below the other. -/
def outlineAll (depth : Nat) : List (Option Subtree) → String
  | [] => ""
  | none :: rest => line depth "<vacant>" ++ outlineAll depth rest
  | some s :: rest => s.outlineAt depth ++ outlineAll depth rest
end

end Subtree

namespace Tree

/-- The part of a tree below a node, to `n` levels. -/
def read (t : Tree) : Nat → NodeId → Subtree
  | 0, id => .node id (t.kind id) (t.value id) []
  | n + 1, id => .node id (t.kind id) (t.value id) ((t.slots id).map (Option.map (t.read n)))

/-- What hangs below a node. In a tree no way down is longer than there are nodes. -/
def subtree (t : Tree) (id : NodeId) : Subtree :=
  t.read t.nodes.size id

/-- The nodes that can be reached from the root, each before its children. -/
def preorder (t : Tree) : List NodeId :=
  (t.subtree t.root).ids

/-- The number of nodes that can be reached from the root. -/
def count (t : Tree) : Nat :=
  t.preorder.length

/-- The first node in preorder whose kind is in a set. -/
def findFirst? (t : Tree) (kinds : KindSet) : Option NodeId :=
  t.preorder.find? fun id => kinds.contains (t.kind id)

/-- The expression below a node. -/
def exprAt (t : Tree) (id : NodeId) : Expr :=
  (t.subtree id).toExpr

/-- The expression that a tree stands for. -/
def toExpr (t : Tree) : Expr :=
  t.exprAt t.root

/-- The outline of a tree. -/
def outline (t : Tree) : String :=
  (t.subtree t.root).outlineAt 0

/-- Removes a node with all that hangs below it. -/
def removeSubtree (t : Tree) (id : NodeId) : Tree :=
  let t := t.detach id
  t.bury (t.subtree id).ids

end Tree

end FlatSelect
