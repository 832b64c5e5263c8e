import FlatSelect.Grammar
import FlatSelect.Transfer

/-!
# Lifting

A deviation is lifted: it is taken out of its slot, its operand takes its place, and it goes up
from ancestor to ancestor, by a transfer at each, until it comes to a slot where the grammar allows
it. There it is put back, with what stood in that slot as its operand, so all that it crossed hangs
below it in the old order. Or some ancestor on the way absorbs it, and it is removed.
-/

namespace FlatSelect

namespace Lift

/-- How a lift ended. -/
inductive Outcome where
  /-- The node was legal where it stood. -/
  | alreadyLegal
  /-- The node stands at a new place, after some number of transfers. -/
  | relocated (place : Place) (steps : Nat)
  /-- The node is gone, after some number of transfers. -/
  | absorbed (steps : Nat)
deriving DecidableEq, Repr

/-- Puts a node that is out of its slot at a place, with what stands there as its operand. -/
def land (node : NodeId) (place : Place) : Edit Unit := do
  match ← modifyGet (·.takeChild place) with
  | none =>
    throw (.internal (.slotVacantDuringLift ((← get).kind place.parent) place.slot))
  | some below =>
    modify (·.setChild ⟨node, 1⟩ below)
    modify (·.setChild place node)

/-- Takes a node that is out of its slot up the places on its way, of which `steps` have been
crossed. -/
def rise (g : Grammar) (node : NodeId) (steps : Nat) : List Place → Edit Outcome
  | [] => do throw (.nonCanonicalizable (.pastRoot ((← get).kind node)))
  | place :: above => do
    let kind := (← get).kind node
    let parent := (← get).kind place.parent
    if g.allows parent place.slot kind then
      land node place
      return .relocated place steps
    else
      match Transfer.between? kind parent with
      | none => throw (.nonCanonicalizable (.noTransfer kind parent))
      | some rule =>
        match ← rule.apply ⟨node, place⟩ with
        | .rises => rise g node (steps + 1) above
        | .absorbed =>
          modify (·.removeSubtree node)
          return .absorbed (steps + 1)

/-- Puts a node's operand in its place. The node is out of its slot then. -/
def spliceOut (node : NodeId) (place : Place) : Edit Unit := do
  match ← modifyGet (·.takeChild ⟨node, 1⟩) with
  | none => throw (.malformedTree (.noOperand ((← get).kind node)))
  | some operand => modify (·.setChild place operand)

/-- Lifts a node, step by step. -/
def run (g : Grammar) (node : NodeId) : Edit Outcome := do
  let t ← get
  match t.place node with
  | none => throw (.nonCanonicalizable (.isRoot (t.kind node)))
  | some place =>
    if g.allows (t.kind place.parent) place.slot (t.kind node) then
      return .alreadyLegal
    else if (t.kind node).hasOperand then
      spliceOut node place
      rise g node 0 (place :: (← get).ancestors place.parent)
    else
      throw (.nonCanonicalizable (.immovable (t.kind node) (t.kind place.parent)))

end Lift

namespace Edit

/-- Lifts a node until it is legal under its parent, or until it is absorbed. -/
def lift (g : Grammar) (node : NodeId) : Edit Lift.Outcome :=
  atomically (Lift.run g node)

end Edit

end FlatSelect
