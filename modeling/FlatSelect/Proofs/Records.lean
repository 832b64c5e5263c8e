import FlatSelect.Tree.Subtree
import Mathlib.Algebra.Order.Group.Multiset
import Mathlib.Data.Multiset.Range
import Mathlib.Data.Multiset.UnionInter
import Mathlib.Tactic.Abel

/-!
# Which nodes a tree stores

A tree is read as subtrees. The records of a subtree are what a tree has to store for it: for every
node its kind, its value, the numbers of its children and the place that it stands in. A tree stores
a collection of records if they are its nodes, each under a number of its own. Dead nodes are among
them, with the mark that they are dead.

A collection is a multiset, so it splits into the records of separate subtrees in any order, and an
edit of one node changes one record and leaves the rest alone. What an operation does to a tree is
said by the collections that the tree stores before and after it. What an operation does not
mention, dead nodes above all, is in the part that is the same before and after.
-/

namespace FlatSelect

/-- Nodes by number. -/
abbrev Records := Multiset (NodeId × Node)

namespace Subtree

/-- What is stored for the top of a subtree that stands at `place`. -/
def top (place : Option Place) (s : Subtree) : Node where
  kind := s.kind
  value := s.value
  slots := s.slots.map (Option.map id)
  place := place
  live := true

mutual
/-- What is stored for the nodes of a subtree that stands at `place`. -/
def records (place : Option Place) : Subtree → Records
  | .node id kind value slots =>
    {(id, top place (.node id kind value slots))} + recordsIn id 0 slots
/-- What is stored for the nodes in the slots of `parent`, counted from `slot`. -/
def recordsIn (parent : NodeId) (slot : Nat) : List (Option Subtree) → Records
  | [] => 0
  | none :: rest => recordsIn parent (slot + 1) rest
  | some s :: rest => s.records (some ⟨parent, slot⟩) + recordsIn parent (slot + 1) rest
end

theorem recordsIn_append (parent : NodeId) (slot : Nat) (left right : List (Option Subtree)) :
    recordsIn parent slot (left ++ right) =
      recordsIn parent slot left + recordsIn parent (slot + left.length) right := by
  induction left generalizing slot with
  | nil => simp [recordsIn]
  | cons head rest ih =>
      cases head with
      | none => simp [recordsIn, ih, Nat.add_assoc, Nat.add_comm 1]
      | some s => simp [recordsIn, ih, add_assoc, Nat.add_comm 1]

/-- The records of the nodes that do not stand at the top. -/
def inner (s : Subtree) : Records :=
  recordsIn s.id 0 s.slots

theorem records_eq (place : Option Place) (s : Subtree) :
    s.records place = {(s.id, s.top place)} + s.inner := by
  cases s
  rfl

mutual
theorem keys_records (place : Option Place) :
    ∀ s : Subtree, (s.records place).map Prod.fst = (s.ids : Multiset NodeId)
  | .node id kind value slots => by
    simp [records, ids, preorder, keys_recordsIn id 0 slots, Subtree.id]
theorem keys_recordsIn (parent : NodeId) (slot : Nat) : ∀ slots : List (Option Subtree),
    (recordsIn parent slot slots).map Prod.fst = ((preorderAll slots).map id : Multiset NodeId)
  | [] => by simp [recordsIn, preorderAll]
  | none :: rest => by simp [recordsIn, preorderAll, keys_recordsIn parent (slot + 1) rest]
  | some s :: rest => by
    have hs := keys_records (some ⟨parent, slot⟩) s
    simp only [ids] at hs
    simp [recordsIn, preorderAll, hs, keys_recordsIn parent (slot + 1) rest]
end

/-- The records of subtrees that stand nowhere. -/
def loose : List (Option Subtree) → Records
  | [] => 0
  | none :: rest => loose rest
  | some s :: rest => s.records none + loose rest

theorem keys_loose (parent : NodeId) (slot : Nat) (slots : List (Option Subtree)) :
    (loose slots).map Prod.fst = (recordsIn parent slot slots).map Prod.fst := by
  induction slots generalizing slot with
  | nil => rfl
  | cons child rest ih =>
      cases child with
      | none => exact ih (slot + 1)
      | some s => simp only [recordsIn, loose, Multiset.map_add, keys_records, ih (slot + 1)]

end Subtree

namespace Tree

/-- The nodes of a tree are those of a collection of records. -/
structure Stores (t : Tree) (m : Records) : Prop where
  nodup : (m.map Prod.fst).Nodup
  node_eq : ∀ e ∈ m, t.node e.1 = e.2
  mem_keys : ∀ id, id ∈ m.map Prod.fst ↔ id < t.nodes.size

theorem node_absent {t : Tree} {id : NodeId} (h : t.nodes.size ≤ id) : t.node id = .absent := by
  simp [node, Array.getD_eq_getD_getElem?, h]

namespace Stores

variable {t : Tree} {m : Records} {id : NodeId} {n : Node}

theorem congr {m' : Records} (h : t.Stores m) (he : m = m') : t.Stores m' :=
  he ▸ h

theorem lt_size (h : t.Stores m) (hm : (id, n) ∈ m) : id < t.nodes.size :=
  (h.mem_keys id).mp (Multiset.mem_map_of_mem Prod.fst hm)

/-- No number is stored that the next node to be made would get. -/
theorem fresh (h : t.Stores m) : t.nodes.size ∉ m.map Prod.fst :=
  fun hm => absurd ((h.mem_keys _).mp hm) (Nat.lt_irrefl _)

theorem card_le (h : t.Stores m) : m.card ≤ t.nodes.size := by
  have hsub : m.map Prod.fst ≤ Multiset.range t.nodes.size := by
    rw [Multiset.le_iff_subset h.nodup]
    intro id hm
    exact Multiset.mem_range.mpr ((h.mem_keys id).mp hm)
  simpa using Multiset.card_le_card hsub

/-- Separate records have different numbers. -/
theorem key_ne {m' : Records} {e e' : NodeId × Node} (h : t.Stores (m + m')) (he : e ∈ m)
    (he' : e' ∈ m') : e.1 ≠ e'.1 := by
  have hnodup := h.nodup
  rw [Multiset.map_add, Multiset.nodup_add] at hnodup
  intro heq
  have hkey := Multiset.mem_map_of_mem Prod.fst he
  rw [heq] at hkey
  exact Multiset.disjoint_left.mp hnodup.2.2 hkey (Multiset.mem_map_of_mem Prod.fst he')

/-- A change of one node changes one record. -/
theorem update {f : Node → Node} (h : t.Stores ({(id, n)} + m)) :
    (t.update id f).Stores ({(id, f n)} + m) := by
  have hmem : (id, n) ∈ {(id, n)} + m := by simp
  have hid : id ∉ m.map Prod.fst := by
    have hnodup := h.nodup
    rw [Multiset.map_add, Multiset.map_singleton, Multiset.singleton_add,
      Multiset.nodup_cons] at hnodup
    exact hnodup.1
  refine ⟨by simpa using h.nodup, ?_, ?_⟩
  · intro e he
    rw [node_update]
    rcases Multiset.mem_add.mp he with he | he
    · rw [Multiset.mem_singleton.mp he, if_pos ⟨rfl, h.lt_size hmem⟩, h.node_eq _ hmem]
    · have hne : id ≠ e.1 := by
        intro heq
        exact hid (heq ▸ Multiset.mem_map_of_mem _ he)
      rw [if_neg fun hc => hne hc.1]
      exact h.node_eq e (Multiset.mem_add.mpr (.inr he))
  · intro other
    rw [size_update, ← h.mem_keys]
    simp

theorem setPlace (place : Option Place) (h : t.Stores ({(id, n)} + m)) :
    (t.setPlace id place).Stores ({(id, { n with place := place })} + m) :=
  h.update (f := fun n => { n with place := place })

theorem setSlot (slot : Nat) (child : Option NodeId) (h : t.Stores ({(id, n)} + m)) :
    (t.setSlot ⟨id, slot⟩ child).Stores
      ({(id, { n with slots := n.slots.set slot child })} + m) :=
  h.update (f := fun n => { n with slots := n.slots.set slot child })

theorem setValue (value : Value) (h : t.Stores ({(id, n)} + m)) :
    (t.setValue id value).Stores ({(id, { n with value := some value })} + m) :=
  h.update (f := fun n => { n with value := some value })

end Stores

/-! ### Removing and making nodes -/

theorem node_bury (t : Tree) (ids : List NodeId) (id : NodeId) :
    (t.bury ids).node id = if id ∈ ids then { t.node id with live := false } else t.node id := by
  induction ids generalizing t with
  | nil => simp [bury]
  | cons head rest ih =>
      have hcons : t.bury (head :: rest) =
          (t.update head fun n => { n with live := false }).bury rest := rfl
      rw [hcons, ih, node_update]
      by_cases hh : head = id
      · subst hh
        by_cases hlt : head < t.nodes.size
        · simp [hlt]
        · have hab := node_absent (Nat.le_of_not_lt hlt)
          simp [hlt, hab, Node.absent]
      · have hh' : id ≠ head := by
          intro h
          exact hh h.symm
        simp [hh, hh']

@[simp] theorem root_bury (t : Tree) (ids : List NodeId) : (t.bury ids).root = t.root := by
  induction ids generalizing t with
  | nil => rfl
  | cons head rest ih => exact ih _

@[simp] theorem size_bury (t : Tree) (ids : List NodeId) :
    (t.bury ids).nodes.size = t.nodes.size := by
  induction ids generalizing t with
  | nil => rfl
  | cons head rest ih => exact (ih _).trans (size_update ..)

end Tree

/-- The same nodes, dead. -/
def Records.bury (m : Records) : Records :=
  m.map fun e => (e.1, { e.2 with live := false })

@[simp] theorem Records.keys_bury (m : Records) : m.bury.map Prod.fst = m.map Prod.fst := by
  rw [Records.bury, Multiset.map_map]
  rfl

theorem Records.dead_bury {m : Records} : ∀ e ∈ m.bury, e.2.live = false := by
  intro e he
  obtain ⟨_, _, rfl⟩ := Multiset.mem_map.mp he
  rfl

theorem Records.dead_bury_add {m graves : Records} (h : ∀ e ∈ graves, e.2.live = false) :
    ∀ e ∈ m.bury + graves, e.2.live = false :=
  fun e he => (Multiset.mem_add.mp he).elim (dead_bury e) (h e)

namespace Tree

/-- Burying the nodes of some records changes the mark of these and leaves the others. -/
theorem Stores.bury {t : Tree} {m gone : Records} {ids : List NodeId}
    (h : t.Stores (gone + m)) (hids : gone.map Prod.fst = (ids : Multiset NodeId)) :
    (t.bury ids).Stores (gone.bury + m) := by
  have hkeys : (gone.bury + m).map Prod.fst = (gone + m).map Prod.fst := by
    rw [Multiset.map_add, Multiset.map_add, Records.keys_bury]
  have hin : ∀ e ∈ gone, e.1 ∈ ids := by
    intro e he
    have hmem := Multiset.mem_map_of_mem Prod.fst he
    rwa [hids] at hmem
  have hout : ∀ e ∈ m, e.1 ∉ ids := by
    intro e he hmem
    have hgone : e.1 ∈ gone.map Prod.fst := by simpa [hids] using hmem
    obtain ⟨e', he', heq⟩ := Multiset.mem_map.mp hgone
    exact h.key_ne he' he heq
  refine ⟨hkeys ▸ h.nodup, ?_, ?_⟩
  · intro e he
    rw [node_bury]
    rcases Multiset.mem_add.mp he with he | he
    · obtain ⟨e', he', rfl⟩ := Multiset.mem_map.mp he
      rw [if_pos (hin e' he'), h.node_eq e' (Multiset.mem_add.mpr (.inl he'))]
    · rw [if_neg (hout e he), h.node_eq e (Multiset.mem_add.mpr (.inr he))]
  · intro id
    rw [size_bury, ← h.mem_keys, hkeys]

/-- The children of a node that is about to be made are told their places. -/
def adopt (t : Tree) (parent : NodeId) (slot : Nat) (slots : List (Option NodeId)) : Tree :=
  (slots.zipIdx slot).foldl
    (fun t (child, slot) => child.elim t fun c => t.setPlace c (some ⟨parent, slot⟩)) t

theorem push_eq (t : Tree) (kind : Kind) (value : Option Value) (slots : List (Option NodeId)) :
    t.push kind value slots = (t.nodes.size, { t.adopt t.nodes.size 0 slots with
      nodes := (t.adopt t.nodes.size 0 slots).nodes.push ⟨kind, value, slots, none, true⟩ }) := rfl

theorem adopt_cons (t : Tree) (parent : NodeId) (slot : Nat) (child : Option NodeId)
    (slots : List (Option NodeId)) :
    t.adopt parent slot (child :: slots) =
      (child.elim t fun c => t.setPlace c (some ⟨parent, slot⟩)).adopt parent (slot + 1) slots := by
  simp [adopt, List.zipIdx_cons]

@[simp] theorem size_adopt (t : Tree) (parent : NodeId) (slot : Nat)
    (slots : List (Option NodeId)) :
    (t.adopt parent slot slots).nodes.size = t.nodes.size := by
  induction slots generalizing t slot with
  | nil => rfl
  | cons child rest ih => rw [adopt_cons, ih]; cases child <;> simp [setPlace]

@[simp] theorem root_adopt (t : Tree) (parent : NodeId) (slot : Nat)
    (slots : List (Option NodeId)) :
    (t.adopt parent slot slots).root = t.root := by
  induction slots generalizing t slot with
  | nil => rfl
  | cons child rest ih => rw [adopt_cons, ih]; cases child <;> simp [setPlace]

@[simp] theorem push_id (t : Tree) (kind : Kind) (value : Option Value)
    (slots : List (Option NodeId)) : (t.push kind value slots).1 = t.nodes.size := rfl

@[simp] theorem root_push (t : Tree) (kind : Kind) (value : Option Value)
    (slots : List (Option NodeId)) : (t.push kind value slots).2.root = t.root := by
  simp [push_eq]

@[simp] theorem size_push (t : Tree) (kind : Kind) (value : Option Value)
    (slots : List (Option NodeId)) :
    (t.push kind value slots).2.nodes.size = t.nodes.size + 1 := by
  simp [push_eq]

namespace Stores

variable {t : Tree} {m : Records}

theorem adopt (parent : NodeId) (slot : Nat) (slots : List (Option Subtree))
    (h : t.Stores (Subtree.loose slots + m)) :
    (t.adopt parent slot (slots.map (Option.map Subtree.id))).Stores
      (Subtree.recordsIn parent slot slots + m) := by
  induction slots generalizing t slot m with
  | nil => exact h
  | cons child rest ih =>
      rw [List.map_cons, adopt_cons]
      cases child with
      | none => exact ih (slot + 1) h
      | some s =>
          have hs : t.Stores ({(s.id, s.top none)} + (s.inner + Subtree.loose rest + m)) :=
            h.congr (by simp only [Subtree.loose, Subtree.records_eq]; abel)
          have hplaced := hs.setPlace (some ⟨parent, slot⟩)
          have hnext := ih (m := s.records (some ⟨parent, slot⟩) + m) (slot + 1)
            (hplaced.congr (by rw [Subtree.records_eq]; simp only [Subtree.top]; abel))
          exact hnext.congr (by simp only [Subtree.recordsIn]; abel)

/-- A new node takes subtrees that stand nowhere for its children, and stands nowhere itself. -/
theorem push {kind : Kind} {value : Option Value} {slots : List (Option Subtree)}
    (h : t.Stores (Subtree.loose slots + m)) :
    (t.push kind value (slots.map (Option.map Subtree.id))).2.Stores
      ((Subtree.node t.nodes.size kind value slots).records none + m) := by
  have hfresh := h.fresh
  have ha := h.adopt t.nodes.size 0 slots
  have hkeys : (Subtree.loose slots + m).map Prod.fst =
      (Subtree.recordsIn t.nodes.size 0 slots + m).map Prod.fst := by
    rw [Multiset.map_add, Multiset.map_add, Subtree.keys_loose t.nodes.size 0]
  rw [hkeys] at hfresh
  have hnode : ∀ id, id ≠ t.nodes.size →
      (t.push kind value (slots.map (Option.map Subtree.id))).2.node id =
        (t.adopt t.nodes.size 0 (slots.map (Option.map Subtree.id))).node id := by
    intro id hne
    rw [push_eq]
    simp only [node, Array.getD_eq_getD_getElem?, Array.getElem?_push, size_adopt, if_neg hne]
  have hnew : (t.push kind value (slots.map (Option.map Subtree.id))).2.node t.nodes.size =
      (Subtree.node t.nodes.size kind value slots).top none := by
    rw [push_eq]
    simp only [node, Array.getD_eq_getD_getElem?, Array.getElem?_push, size_adopt, if_true]
    rfl
  have hrecords : (Subtree.node t.nodes.size kind value slots).records none + m =
      {(t.nodes.size, (Subtree.node t.nodes.size kind value slots).top none)} +
        (Subtree.recordsIn t.nodes.size 0 slots + m) := by
    rw [Subtree.records, add_assoc]
  rw [hrecords]
  refine ⟨?_, ?_, ?_⟩
  · rw [Multiset.map_add, Multiset.map_singleton, Multiset.singleton_add, Multiset.nodup_cons]
    exact ⟨hfresh, ha.nodup⟩
  · intro e he
    rcases Multiset.mem_add.mp he with he | he
    · rw [Multiset.mem_singleton.mp he]
      exact hnew
    · have hkey := Multiset.mem_map_of_mem Prod.fst he
      rw [hnode _ fun heq => hfresh (by rwa [heq] at hkey)]
      exact ha.node_eq e he
  · intro id
    rw [Multiset.map_add, Multiset.mem_add, ha.mem_keys, size_adopt, size_push,
      Multiset.map_singleton, Multiset.mem_singleton, Nat.lt_succ_iff_lt_or_eq, or_comm]

end Stores

end Tree

end FlatSelect
