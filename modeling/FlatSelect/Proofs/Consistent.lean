import FlatSelect.Proofs.Intact
import Mathlib.Data.List.Induction

/-!
# The links of a tree

Every node is linked in both directions, to its parent and to its children. In a tree that has come
of an expression the two directions agree, a node is live just if there is a way down to it from the
root, there are no two ways to one node, and no slot is vacant (`Tree.Reached.consistent`).
-/

namespace FlatSelect

namespace Tree

/-- The node that one comes to from `id` on a way down, given by the slots that one takes. -/
def follow (t : Tree) : NodeId → List Nat → Option NodeId
  | id, [] => some id
  | id, slot :: rest => (t.child id slot).bind fun child => t.follow child rest

/-- Links agree, and live nodes are those of one tree below the root, with no slot vacant. -/
structure Consistent (t : Tree) : Prop where
  /-- Whatever stands in a slot is a node. -/
  child_lt {id child : NodeId} {slot : Nat} (h : t.child id slot = some child) :
    child < t.nodes.size
  /-- Whatever a node stands in is a slot of a node. -/
  place_lt {id : NodeId} {place : Place} (h : t.place id = some place) :
    place.parent < t.nodes.size ∧ place.slot < (t.slots place.parent).length
  /-- A node stands in a slot by its own account just if it does by the slot's. -/
  child_iff {parent child : NodeId} {slot : Nat} :
    t.child parent slot = some child ↔ t.place child = some ⟨parent, slot⟩
  /-- The root stands nowhere. -/
  place_root : t.place t.root = none
  /-- What is live can be reached, and the other way round. -/
  isLive_iff {id : NodeId} : t.isLive id = true ↔ ∃ way, t.follow t.root way = some id
  /-- There is one way to a node. -/
  follow_inj {id : NodeId} {way way' : List Nat} (h : t.follow t.root way = some id)
    (h' : t.follow t.root way' = some id) : way = way'
  /-- A live node has the slots of its kind, and none is vacant. -/
  slots_live {id : NodeId} (h : t.isLive id = true) :
    (t.slots id).length = (t.kind id).arity ∧ none ∉ t.slots id

variable {t : Tree} {s : Subtree} {m graves : Records} {c : Contract}

theorem follow_concat (t : Tree) (id : NodeId) (way : List Nat) (slot : Nat) :
    t.follow id (way ++ [slot]) = (t.follow id way).bind fun parent => t.child parent slot := by
  induction way generalizing id with
  | nil => simp [follow]
  | cons first rest ih =>
      simp only [List.cons_append, follow, Option.bind_assoc]
      exact congrArg _ (funext ih)

theorem child_eq_some {parent child : NodeId} {slot : Nat} :
    t.child parent slot = some child ↔ (t.node parent).slots[slot]? = some (some child) := by
  rw [Tree.child, Option.join_eq_some_iff]
  rfl

/-- Nodes that are stored are found, and the others say nothing. -/
theorem Stores.node_cases (h : t.Stores m) (id : NodeId) :
    (id, t.node id) ∈ m ∨ t.node id = .absent := by
  by_cases hlt : id < t.nodes.size
  · obtain ⟨⟨_, n⟩, hmem, rfl⟩ := Multiset.mem_map.mp ((h.mem_keys id).mpr hlt)
    exact .inl (by rw [h.node_eq _ hmem]; exact hmem)
  · exact .inr (node_absent (Nat.le_of_not_lt hlt))

namespace Stores

theorem mem_of_child (h : t.Stores m) {parent child : NodeId} {slot : Nat}
    (hchild : t.child parent slot = some child) : (parent, t.node parent) ∈ m := by
  refine (h.node_cases parent).resolve_right fun habsent => ?_
  rw [child_eq_some, habsent] at hchild
  cases hchild

theorem mem_of_place (h : t.Stores m) {id : NodeId} {place : Place}
    (hplace : t.place id = some place) : (id, t.node id) ∈ m := by
  refine (h.node_cases id).resolve_right fun habsent => ?_
  rw [Tree.place, habsent] at hplace
  cases hplace

/-- A tree of linked records has links that agree. -/
theorem down (h : t.Stores m) (hlinked : m.Linked) {parent child : NodeId} {slot : Nat}
    (hchild : t.child parent slot = some child) :
    (child, t.node child) ∈ m ∧ t.place child = some ⟨parent, slot⟩ := by
  obtain ⟨n, hn, hplace⟩ := hlinked.down (h.mem_of_child hchild) (child_eq_some.mp hchild)
  have hnode := h.node_eq _ hn
  exact ⟨by rw [hnode]; exact hn, by rw [Tree.place, hnode, hplace]⟩

theorem up (h : t.Stores m) (hlinked : m.Linked) {child : NodeId} {place : Place}
    (hplace : t.place child = some place) :
    (place.parent, t.node place.parent) ∈ m ∧
      t.child place.parent place.slot = some child := by
  obtain ⟨n, hn, hslot⟩ := hlinked.up (h.mem_of_place hplace) hplace
  have hnode := h.node_eq _ hn
  exact ⟨by rw [hnode]; exact hn, by rw [child_eq_some, hnode, hslot]⟩

end Stores

namespace Holds

theorem node_foot {path : Path} (h : t.Holds (path.fill s) graves) :
    t.node s.id = s.top path.place? :=
  h.stores_foot.node_top

/-- The way down to the foot of a path is that of its slots. -/
theorem follow_foot {path : Path} (h : t.Holds (path.fill s) graves) :
    t.follow t.root (path.map Frame.slot).reverse = some s.id := by
  induction path generalizing s with
  | nil => rw [h.root_eq]; rfl
  | cons f above ih =>
      have hparent := ih (s := f.fill (some s)) h
      have hchild : t.child f.id f.slot = some s.id := by
        have hc := h.stores_parent.child_eq f.slot
        rwa [Frame.child_fill] at hc
      rw [List.map_cons, List.reverse_cons, follow_concat, hparent]
      exact hchild

/-- What is live stands at the foot of a path. -/
theorem exists_path_of_isLive (h : t.Holds s graves) {id : NodeId} (hlive : t.isLive id = true) :
    ∃ (path : Path) (below : Subtree), path.fill below = s ∧ below.id = id := by
  rcases h.stores.node_cases id with hmem | habsent
  · rcases Multiset.mem_add.mp hmem with hmem | hmem
    · obtain ⟨path, below, hfill, heq⟩ := Subtree.exists_path_of_mem_records hmem
      exact ⟨path, below, hfill, (congrArg Prod.fst heq).symm⟩
    · exact absurd hlive (by rw [Tree.isLive, h.dead _ hmem]; decide)
  · rw [Tree.isLive, habsent] at hlive
    cases hlive

theorem isLive_foot {path : Path} (h : t.Holds (path.fill s) graves) : t.isLive s.id = true := by
  rw [Tree.isLive, h.node_foot]
  rfl

/-- Whoever follows the slots down from the root comes to live nodes only. -/
theorem isLive_of_follow (h : t.Holds s graves) {id : NodeId} {way : List Nat}
    (hway : t.follow t.root way = some id) : t.isLive id = true := by
  induction way using List.reverseRecOn generalizing id with
  | nil =>
      cases hway
      rw [h.root_eq]
      exact @isLive_foot _ _ _ [] h
  | append_singleton way slot ih =>
      rw [follow_concat, Option.bind_eq_some_iff] at hway
      obtain ⟨parent, hparent, hchild⟩ := hway
      obtain ⟨path, below, rfl, rfl⟩ := h.exists_path_of_isLive (ih hparent)
      rw [h.stores_foot.child_eq] at hchild
      obtain ⟨child, hc, rfl⟩ := Option.map_eq_some_iff.mp hchild
      obtain ⟨f, rfl, _⟩ := Subtree.exists_frame hc
      exact @isLive_foot _ _ _ (f :: path) h

end Holds

/-- Where every child that can be reached says where it stands, and the root nowhere, there is one
way to a node. -/
theorem follow_inj_of_place
    (hplace : ∀ {way parent child slot}, t.follow t.root way = some parent →
      t.child parent slot = some child → t.place child = some ⟨parent, slot⟩)
    (hroot : t.place t.root = none) {id : NodeId} {way way' : List Nat}
    (h : t.follow t.root way = some id) (h' : t.follow t.root way' = some id) : way = way' := by
  have hlast : ∀ {way slot id}, t.follow t.root (way ++ [slot]) = some id →
      ∃ parent, t.follow t.root way = some parent ∧ t.place id = some ⟨parent, slot⟩ := by
    intro way slot id h
    rw [follow_concat, Option.bind_eq_some_iff] at h
    obtain ⟨parent, hparent, hchild⟩ := h
    exact ⟨parent, hparent, hplace hparent hchild⟩
  induction way using List.reverseRecOn generalizing id way' with
  | nil =>
      cases h
      cases way' using List.reverseRecOn with
      | nil => rfl
      | append_singleton way' slot' =>
          obtain ⟨_, _, hstands⟩ := hlast h'
          rw [hroot] at hstands
          cases hstands
  | append_singleton way slot ih =>
      obtain ⟨parent, hparent, hstands⟩ := hlast h
      cases way' using List.reverseRecOn with
      | nil =>
          cases h'
          rw [hroot] at hstands
          cases hstands
      | append_singleton way' slot' =>
          obtain ⟨parent', hparent', hstands'⟩ := hlast h'
          rw [hstands] at hstands'
          cases hstands'
          rw [ih hparent hparent']

/-- Linked records, and a regular subtree of them that is live, make a tree consistent. -/
theorem Holds.consistent_of_resting (h : t.Holds s graves) (hreg : s.Regular c)
    (hrest : graves.Resting) : t.Consistent := by
  have hlinked : (s.records none + graves).Linked :=
    (Records.linked_records s).add hrest.linked
  have hplace : ∀ {parent child slot}, t.child parent slot = some child →
      t.place child = some ⟨parent, slot⟩ := fun hchild => (h.stores.down hlinked hchild).2
  have hroot : t.place t.root = none := by
    rw [h.root_eq]
    exact h.stores.place_eq
  constructor
  case child_lt =>
    intro id child slot hchild
    exact h.stores.lt_size (h.stores.down hlinked hchild).1
  case place_lt =>
    intro id place hstands
    obtain ⟨hmem, hchild⟩ := h.stores.up hlinked hstands
    refine ⟨h.stores.lt_size hmem, ?_⟩
    exact (List.getElem?_eq_some_iff.mp (child_eq_some.mp hchild)).1
  case child_iff =>
    intro parent child slot
    exact ⟨hplace, fun hstands => (h.stores.up hlinked hstands).2⟩
  case place_root => exact hroot
  case isLive_iff =>
    intro id
    refine ⟨fun hlive => ?_, fun ⟨_, hway⟩ => h.isLive_of_follow hway⟩
    obtain ⟨path, below, rfl, rfl⟩ := h.exists_path_of_isLive hlive
    exact ⟨_, h.follow_foot⟩
  case follow_inj => exact follow_inj_of_place (fun _ => hplace) hroot
  case slots_live =>
    intro id hlive
    obtain ⟨path, below, rfl, rfl⟩ := h.exists_path_of_isLive hlive
    have hbelow : below.Regular c := hreg.foot
    obtain ⟨hproper, hall⟩ := Subtree.regular_iff.mp hbelow
    rw [h.stores_foot.slots_eq, h.stores_foot.kind_eq, List.length_map]
    refine ⟨hproper.length_eq, fun hnone => ?_⟩
    obtain ⟨hole, hhole, hvacant⟩ := List.mem_map.mp hnone
    rw [Option.map_eq_none_iff] at hvacant
    exact hall.none_notMem (hvacant ▸ hhole)

theorem Intact.consistent_links (h : t.Intact c) : t.Consistent := by
  obtain ⟨s, graves, hholds, hreg, hrest⟩ := h
  exact hholds.consistent_of_resting hreg hrest

/-- Whatever is done to a tree, its links are consistent. -/
theorem Reached.consistent (h : Reached c t) : t.Consistent :=
  h.intact.consistent_links

/-- A rename is lifted past a condition, and a name is written over its pair. -/
theorem Reached.consistent_rename :
    let e := Expr.assign "V" (.condition (.name "a") (.rename "a" "b" (.input1 "t")))
    ∃ t, ofExpr e = .ok t ∧
      (((Edit.lift .flatSelect 5).left t).setValue 2 (.name "x")).Consistent := by
  intro e
  let t := planted e
  have ht : ofExpr e = .ok t := ofExpr_eq_ok.mpr ⟨rfl, rfl⟩
  have hpair : ((Edit.lift .flatSelect 5).left t).value 2 = some (.rename "a" "b") := by
    decide +kernel
  have hreached : Reached .lax (((Edit.lift .flatSelect 5).left t).setValue 2 (.name "x")) :=
    .overwrite (.lift .flatSelect 5 (.built ht)) hpair fun _ _ => rfl
  exact ⟨t, ht, hreached.consistent⟩

end Tree

end FlatSelect
