import FlatSelect.Proofs.Frame

/-!
# Where a relation is read

The places where an expression reads a relation are given by the ways down to them, each the list of
the slots that one takes (`Expr.readings`). Below the operands of a join a relation may also be read
by its bare name, or by an alias over the name.

When something else is put at some ways, then all that is not at the end of one of them, nor below,
may stay as it is. Two subtrees agree off these ways if the same nodes stand at all other ways
(`Subtree.AgreesOff`).
-/

namespace FlatSelect

/-- A way that leads neither to the end of one of some ways nor below it. -/
def Outside (ways : List (List Nat)) (way : List Nat) : Prop :=
  ∀ taken ∈ ways, ¬ taken <+: way

instance (ways : List (List Nat)) (way : List Nat) : Decidable (Outside ways way) :=
  inferInstanceAs (Decidable (∀ taken ∈ ways, ¬ taken <+: way))

section Outside

variable {ways ways' : List (List Nat)} {way way' : List Nat} {slot : Nat}

theorem not_outside_top : ¬ Outside [[]] way :=
  fun h => h [] (List.mem_singleton_self _) List.nil_prefix

theorem outside_append : Outside (ways ++ ways') way ↔ Outside ways way ∧ Outside ways' way :=
  List.forall_mem_append

theorem outside_map_cons : Outside (ways.map (slot :: ·)) (slot :: way) ↔ Outside ways way := by
  simp [Outside, List.cons_prefix_cons]

/-- Above what is outside there is nothing that is not. -/
theorem Outside.of_above (h : Outside ways way) (habove : way' <+: way) : Outside ways way' :=
  fun taken htaken hway => h taken htaken (hway.trans habove)

end Outside

namespace Expr

/-- The way from a branch of a join to what is to be replaced in it, if it reads a relation by its
name: a bare name itself, or the name that an alias stands on. -/
def branchReading? (name : String) : Expr → Option (List Nat)
  | .node .constant value _ => if value = some (.name name) then some [] else none
  | .node .renameAll _ children =>
    if children[1]?.bind Expr.value = some (.name name) then some [1] else none
  | _ => none

mutual
/-- The ways down to the places where an expression reads the relation called `name`. -/
def readings (name : String) : Expr → List (List Nat)
  | .node kind _ children =>
    if kind = .input1 ∧ children[0]?.bind Expr.value = some (.name name) then [[]]
    else readingsFrom name kind 0 children
/-- The ways that begin at the operands of a `parent`, from `slot` on. -/
def readingsFrom (name : String) (parent : Kind) (slot : Nat) : List Expr → List (List Nat)
  | [] => []
  | e :: es =>
    (((if parent = .input2 then branchReading? name e else none).map ([·])).getD
      (readings name e)).map (slot :: ·) ++ readingsFrom name parent (slot + 1) es
end

end Expr

namespace Subtree

/-- What one comes to on a way down. -/
def follow : Subtree → List Nat → Option Subtree
  | s, [] => some s
  | s, slot :: way => (s.child slot).bind fun child => child.follow way

/-- The node that one comes to: its number, its kind and its value. -/
def nodeAt? (s : Subtree) (way : List Nat) : Option (NodeId × Kind × Option Value) :=
  (s.follow way).map fun n => (n.id, n.kind, n.value)

/-- Off some ways, the same nodes stand at the same places. -/
def AgreesOff (ways : List (List Nat)) (old new : Subtree) : Prop :=
  ∀ way, Outside ways way → new.nodeAt? way = old.nodeAt? way

/-- What stands in several slots agrees off some ways. The first of them is `slot`. -/
def SlotsAgreeOff (ways : List (List Nat)) (slot : Nat) (olds news : List (Option Subtree)) :
    Prop :=
  ∀ i way, Outside ways ((slot + i) :: way) →
    news[i]?.join.bind (nodeAt? · way) = olds[i]?.join.bind (nodeAt? · way)

variable {ways ways' : List (List Nat)} {old new s : Subtree} {olds news : List (Option Subtree)}
  {slot : Nat}

theorem nodeAt?_cons (s : Subtree) (slot : Nat) (way : List Nat) :
    s.nodeAt? (slot :: way) = s.slots[slot]?.join.bind (nodeAt? · way) := by
  rw [nodeAt?, follow, child, Option.map_bind]
  rfl

theorem AgreesOff.refl (ways : List (List Nat)) (s : Subtree) : s.AgreesOff ways s :=
  fun _ _ => rfl

/-- Nothing is off the way to the top. -/
theorem agreesOff_top (old new : Subtree) : old.AgreesOff [[]] new :=
  fun _ h => absurd h not_outside_top

theorem slotsAgreeOff_nil (ways : List (List Nat)) (slot : Nat) : SlotsAgreeOff ways slot [] [] :=
  fun _ _ _ => rfl

theorem AgreesOff.cons (h : old.AgreesOff ways new)
    (hrest : SlotsAgreeOff ways' (slot + 1) olds news) :
    SlotsAgreeOff (ways.map (slot :: ·) ++ ways') slot (some old :: olds) (some new :: news) := by
  intro i way hway
  obtain ⟨hfirst, hway⟩ := outside_append.mp hway
  cases i with
  | zero => exact h way (outside_map_cons.mp hfirst)
  | succ i =>
      rw [← Nat.succ_add_eq_add_succ] at hway
      exact hrest i way hway

/-- A node with other things in its slots. -/
theorem SlotsAgreeOff.node {id : NodeId} {kind : Kind} {value : Option Value}
    (h : SlotsAgreeOff ways 0 olds news) :
    (Subtree.node id kind value olds).AgreesOff ways (.node id kind value news) := by
  intro way hway
  cases way with
  | nil => rfl
  | cons slot way =>
      rw [nodeAt?_cons, nodeAt?_cons]
      rw [← Nat.zero_add slot] at hway
      exact h slot way hway

end Subtree

end FlatSelect
