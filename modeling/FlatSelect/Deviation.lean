import FlatSelect.Grammar
import FlatSelect.Tree.Subtree

/-!
# Deviations

A deviation is a node that the grammar forbids where it stands: the root, if its kind is none of
those expected there, or a child whose kind its slot does not take. The first deviation is the
first in preorder. What hangs below a deviation is not looked at.
-/

namespace FlatSelect

namespace Subtree

mutual
/-- The first deviation, where one of the `expected` kinds has to stand at the top. -/
def deviation? (g : Grammar) (expected : KindSet) : Subtree → Option NodeId
  | .node id kind _ slots =>
    if expected.contains kind then deviationIn? g kind 0 slots else some id
/-- The first deviation in the slots of a node, counted from `slot`. -/
def deviationIn? (g : Grammar) (parent : Kind) (slot : Nat) :
    List (Option Subtree) → Option NodeId
  | [] => none
  | none :: rest => deviationIn? g parent (slot + 1) rest
  | some s :: rest =>
    (s.deviation? g (g.childKinds parent slot)).or (deviationIn? g parent (slot + 1) rest)
end

end Subtree

namespace Tree

/-- The first deviation of a tree whose root has to be one of `roots`. -/
def deviation? (t : Tree) (g : Grammar) (roots : KindSet) : Option NodeId :=
  (t.subtree t.root).deviation? g roots

/-- Whether a tree conforms to a grammar. -/
def conforms (t : Tree) (g : Grammar) (roots : KindSet) : Bool :=
  (t.deviation? g roots).isNone

end Tree

end FlatSelect
