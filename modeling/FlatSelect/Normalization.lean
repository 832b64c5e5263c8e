import FlatSelect.Deviation
import FlatSelect.Lift
import FlatSelect.Tree.Build

/-!
# Normalization

A tree is made to conform to a grammar by lifting its first deviation until there is none. How many
lifts that may take is given. The result is compacted. Where normalization fails, the tree is left
as it was.
-/

namespace FlatSelect

/-- What a normalization took. -/
structure Tally where
  /-- The lifts, those that ended in absorption included. -/
  lifts : Nat
  /-- The nodes that were absorbed. -/
  absorbed : Nat
deriving DecidableEq, Repr

namespace Tally

/-- Before any lift. -/
def zero : Tally where
  lifts := 0
  absorbed := 0

/-- After one more lift. -/
def count (tally : Tally) : Lift.Outcome → Tally
  | .absorbed _ => { lifts := tally.lifts + 1, absorbed := tally.absorbed + 1 }
  | _ => { tally with lifts := tally.lifts + 1 }

end Tally

namespace Edit

/-- Lifts first deviations until there is none, with `budget` lifts left to spend. -/
def liftAll (g : Grammar) (roots : KindSet) : (budget : Nat) → Tally → Edit Tally
  | 0, tally => do
    match (← get).deviation? g roots with
    | none => return tally
    | some _ => throw (.nonCanonicalizable (.budgetSpent tally.lifts))
  | budget + 1, tally => do
    match (← get).deviation? g roots with
    | none => return tally
    | some node =>
      let kind := (← get).kind node
      match ← lift g node with
      | .alreadyLegal => throw (.internal (.deviationLegal kind))
      | outcome => liftAll g roots budget (tally.count outcome)

/-- Makes a tree conform to a grammar, by at most `budget` lifts. -/
def normalize (g : Grammar) (roots : KindSet) (budget : Nat) : Edit Tally :=
  atomically do
    let tally ← liftAll g roots budget .zero
    modify Tree.compact
    return tally

end Edit

end FlatSelect
