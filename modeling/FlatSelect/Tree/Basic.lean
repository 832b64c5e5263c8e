import FlatSelect.Error

/-!
# Trees of numbered nodes

A query that is being worked on is a list of nodes, numbered in the order in which they were made.
Each node knows its children by slot and the place that it stands in, and the two directions are
changed together: `setChild`, `takeChild`, `detach` and `replaceNode` are the only ways to move a
node, and `push` the only way to make one.

A number is never reused. A node that has been removed keeps its number and is marked dead, so a
number that somebody holds on to always means the same node. Reading a number that no node has
gives `Node.absent`.
-/

namespace FlatSelect

/-- A slot of a node. -/
structure Place where
  parent : NodeId
  slot : Nat
deriving DecidableEq, Repr

/-- A node with its links in both directions. -/
structure Node where
  kind : Kind
  value : Option Value
  /-- The children by slot. A slot may be vacant. -/
  slots : List (Option NodeId)
  /-- The place that the node stands in, if any. -/
  place : Option Place
  /-- Whether the node has not been removed. -/
  live : Bool
deriving DecidableEq, Repr

/-- What is read at a number that no node has. -/
def Node.absent : Node where
  kind := .constant
  value := none
  slots := []
  place := none
  live := false

/-- A query as numbered nodes, one of them the root. -/
structure Tree where
  nodes : Array Node
  root : NodeId
deriving DecidableEq

namespace Tree

/-- The tree before any node is made. -/
def empty : Tree where
  nodes := #[]
  root := 0

/-! ### Reading -/

def node (t : Tree) (id : NodeId) : Node :=
  t.nodes.getD id .absent

def kind (t : Tree) (id : NodeId) : Kind :=
  (t.node id).kind

def value (t : Tree) (id : NodeId) : Option Value :=
  (t.node id).value

def slots (t : Tree) (id : NodeId) : List (Option NodeId) :=
  (t.node id).slots

/-- Where a node stands. The root, and a node that is in no slot, stand nowhere. -/
def place (t : Tree) (id : NodeId) : Option Place :=
  (t.node id).place

/-- Whether a node has not been removed. -/
def isLive (t : Tree) (id : NodeId) : Bool :=
  (t.node id).live

/-- The child in a slot, unless the slot is vacant or there is no such slot. -/
def child (t : Tree) (id : NodeId) (slot : Nat) : Option NodeId :=
  (t.slots id)[slot]?.join

/-- The occupied slots, each with its child. -/
def occupied (t : Tree) (id : NodeId) : List (Nat × NodeId) :=
  (t.slots id).zipIdx.filterMap fun (child, slot) => child.map fun c => (slot, c)

/-- The value of the child in a slot. -/
def slotValue (t : Tree) (id : NodeId) (slot : Nat) : Option Value :=
  (t.child id slot).bind t.value

/-- The places that one meets on the way up: that of the node, that of its parent, and so on, at
most `n` of them. -/
def climb (t : Tree) : Nat → NodeId → List Place
  | 0, _ => []
  | n + 1, id =>
    match t.place id with
    | none => []
    | some place => place :: t.climb n place.parent

/-- Every place on the way up from a node, the nearest first. -/
def ancestors (t : Tree) (id : NodeId) : List Place :=
  t.climb t.nodes.size id

/-- The slots that lead down to a node from the top of what it belongs to. -/
def path (t : Tree) (id : NodeId) : List Nat :=
  ((t.ancestors id).map Place.slot).reverse

/-! ### Changing -/

/-- One node changed by `f`. -/
def update (t : Tree) (id : NodeId) (f : Node → Node) : Tree :=
  { t with nodes := t.nodes.modify id f }

@[simp] theorem size_update (t : Tree) (id : NodeId) (f : Node → Node) :
    (t.update id f).nodes.size = t.nodes.size := by
  simp [update]

@[simp] theorem root_update (t : Tree) (id : NodeId) (f : Node → Node) :
    (t.update id f).root = t.root := rfl

theorem node_update (t : Tree) (id other : NodeId) (f : Node → Node) :
    (t.update id f).node other =
      if id = other ∧ other < t.nodes.size then f (t.node other) else t.node other := by
  simp only [node, update, Array.getD_eq_getD_getElem?, Array.getElem?_modify]
  by_cases hlt : other < t.nodes.size
  · by_cases h : id = other <;> simp [h, hlt]
  · simp [hlt]

def setValue (t : Tree) (id : NodeId) (value : Value) : Tree :=
  t.update id fun n => { n with value := some value }

/-- The node says that it stands at `place`, whatever the slot there says. -/
def setPlace (t : Tree) (id : NodeId) (place : Option Place) : Tree :=
  t.update id fun n => { n with place := place }

/-- The slot at `place` says what its child is, whatever the child says. -/
def setSlot (t : Tree) (place : Place) (child : Option NodeId) : Tree :=
  t.update place.parent fun n => { n with slots := n.slots.set place.slot child }

/-- Takes a node out of the slot that it stands in. -/
def detach (t : Tree) (id : NodeId) : Tree :=
  match t.place id with
  | none => t
  | some place => (t.setPlace id none).setSlot place none

/-- Puts `child` at `place`. The slot that it stood in becomes vacant, and what stood at `place`
then stands nowhere. -/
def setChild (t : Tree) (place : Place) (child : NodeId) : Tree :=
  let t := t.detach child
  let evicted := (t.child place.parent place.slot).filter (· ≠ child)
  let t := t.setSlot place (some child)
  let t := evicted.elim t fun previous => t.setPlace previous none
  t.setPlace child (some place)

/-- Vacates a slot. The child that stood there is returned, and then stands nowhere. -/
def takeChild (t : Tree) (place : Place) : Option NodeId × Tree :=
  match t.child place.parent place.slot with
  | none => (none, t)
  | some child => (some child, (t.setSlot place none).setPlace child none)

/-- Puts `new` where `old` stands: in its slot, or at the root. -/
def replaceNode (t : Tree) (old new : NodeId) : Tree :=
  match t.place old with
  | some place => t.setChild place new
  | none =>
    let t := t.detach new
    if t.root = old then { t with root := new } else t

/-- Makes a node of children that are already there. It stands nowhere yet. -/
def push (t : Tree) (kind : Kind) (value : Option Value) (slots : List (Option NodeId)) :
    NodeId × Tree :=
  let id := t.nodes.size
  let adopted := slots.zipIdx.foldl
    (fun t (child, slot) => child.elim t fun c => t.setPlace c (some ⟨id, slot⟩)) t
  (id, { adopted with nodes := adopted.nodes.push ⟨kind, value, slots, none, true⟩ })

/-- Marks nodes as removed. -/
def bury (t : Tree) (ids : List NodeId) : Tree :=
  ids.foldl (fun t id => t.update id fun n => { n with live := false }) t

end Tree

end FlatSelect
