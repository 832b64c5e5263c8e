import FlatSelect.Proofs.Postorder
import FlatSelect.Proofs.Rooted

/-!
# Compacting

A tree is compacted by copying what can be reached from its root into an empty tree, slot by slot.
Nothing is asked of the tree but that this part is a tree (`Tree.Treelike`): there may be any number
of dead nodes, and any slots may be vacant. All that can be read off the tree without looking at
numbers stays as it is, and what comes of it is tidy: there are no nodes but those that can be
reached, their links agree, and their numbers are their positions in postorder
(`Tree.Treelike.compact_tidies`).
-/

namespace FlatSelect

namespace Subtree

variable {s s' : Subtree}

mutual
theorem outlineAt_bare (depth : Nat) : ∀ s : Subtree, s.bare.outlineAt depth = s.outlineAt depth
  | .node _ _ _ slots => by
    rw [bare, outlineAt, outlineAt, outlineAll_bareIn (depth + 1) slots]
theorem outlineAll_bareIn (depth : Nat) : ∀ slots,
    outlineAll depth (bareIn slots) = outlineAll depth slots
  | [] => rfl
  | none :: rest => by rw [bareIn, outlineAll, outlineAll, outlineAll_bareIn depth rest]
  | some s :: rest => by
    rw [bareIn, outlineAll, outlineAll, outlineAt_bare depth s, outlineAll_bareIn depth rest]
end

/-- What a node is, but for its number: its kind, its value, and which of its slots are
occupied. -/
def features (s : Subtree) : Kind × Option Value × List Bool :=
  (s.kind, s.value, s.slots.map Option.isSome)

theorem features_bare (s : Subtree) : s.bare.features = s.features := by
  rw [features, features, bare_kind, bare_value, bare_slots, List.map_map]
  refine congrArg (fun occupied => (s.kind, s.value, occupied)) (List.map_congr_left ?_)
  intro hole _
  exact Option.isSome_map

theorem follow_bare (s : Subtree) (way : List Nat) :
    s.bare.follow way = (s.follow way).map bare := by
  induction way generalizing s with
  | nil => rfl
  | cons slot way ih =>
      rw [follow, follow, bare_child]
      cases s.child slot with
      | none => rfl
      | some child => exact ih child

/-- Subtrees that are the same but for numbers have the same nodes at the ends of the same ways. -/
theorem features_of_bare_eq (h : s'.bare = s.bare) (way : List Nat) :
    (s'.follow way).map features = (s.follow way).map features := by
  have hbare : ∀ s : Subtree, (s.bare.follow way).map features = (s.follow way).map features := by
    intro s
    rw [follow_bare, Option.map_map]
    exact Option.map_congr fun n _ => n.features_bare
  rw [← hbare s', h, hbare s]

theorem fullAll_iff {slots : List (Option Subtree)} :
    fullAll slots = true ↔ ∀ hole ∈ slots, ∃ child, hole = some child ∧ child.full = true := by
  induction slots with
  | nil => simp [fullAll]
  | cons hole rest ih => cases hole <;> simp [fullAll, ih]

end Subtree

namespace Tree

variable {t : Tree} {id : NodeId} {way : List Nat} {n : Nat} {s : Subtree} {graves : Records}

/-- What a node of a tree is, but for its number. -/
def features (t : Tree) (id : NodeId) : Kind × Option Value × List Bool :=
  (t.kind id, t.value id, (t.slots id).map Option.isSome)

theorem Holds.treelike (h : t.Holds s graves) : t.Treelike where
  lt_size hway := lt_size_of_isLive (h.isLive_of_follow hway)
  follow_inj hway hway' := by
    refine follow_inj_of_place ?_ (h.root_eq ▸ h.stores.place_eq) hway hway'
    intro way parent child slot hparent hchild
    obtain ⟨path, below, rfl, rfl⟩ := h.exists_path_of_isLive (h.isLive_of_follow hparent)
    rw [h.stores_foot.child_eq] at hchild
    obtain ⟨c, hc, rfl⟩ := Option.map_eq_some_iff.mp hchild
    obtain ⟨f, rfl, rfl⟩ := Subtree.exists_frame hc
    exact h.stores_parent.below.place_eq

namespace Treelike

/-- What has been read below a node has the nodes that one comes to from there. -/
theorem features_read (h : t.Treelike) (hway : t.follow t.root way = some id)
    (hn : t.nodes.size ≤ way.length + n) (below : List Nat) :
    ((t.read n id).follow below).map Subtree.features = (t.follow id below).map t.features := by
  revert below
  refine h.read_induction (motive := fun id s => ∀ below,
    (s.follow below).map Subtree.features = (t.follow id below).map t.features) ?_ hway hn
  intro way id n _ _ ih below
  cases below with
  | nil =>
      change some (t.kind id, t.value id,
        ((t.slots id).map (Option.map (t.read n))).map Option.isSome) = some (t.features id)
      rw [List.map_map, features]
      refine congrArg (fun occupied => some (t.kind id, t.value id, occupied))
        (List.map_congr_left ?_)
      intro child _
      exact Option.isSome_map
  | cons slot below =>
      rw [Subtree.follow, follow, child_read]
      cases hchild : t.child id slot with
      | none => rfl
      | some child => exact (ih slot child hchild).2 below

theorem features_subtree (h : t.Treelike) (way : List Nat) :
    ((t.subtree t.root).follow way).map Subtree.features =
      (t.follow t.root way).map t.features :=
  @features_read t t.root [] t.nodes.size h rfl (Nat.le_add_left _ _) way

/-- Where nothing that can be reached has a vacant slot, nothing that is read has one. -/
theorem full_read (h : t.Treelike)
    (hfull : ∀ way id, t.follow t.root way = some id → none ∉ t.slots id)
    (hway : t.follow t.root way = some id) (hn : t.nodes.size ≤ way.length + n) :
    (t.read n id).full = true := by
  refine h.read_induction (motive := fun _ s => s.full = true) ?_ hway hn
  intro way id n hway _ ih
  refine Subtree.fullAll_iff.mpr fun hole hhole => ?_
  obtain ⟨child, hmem, rfl⟩ := List.mem_map.mp hhole
  cases child with
  | none => exact absurd hmem (hfull way id hway)
  | some child =>
      obtain ⟨slot, hslot⟩ := List.mem_iff_getElem?.mp hmem
      exact ⟨t.read n child, rfl, (ih slot child (child_eq_some.mpr hslot)).2⟩

end Treelike

/-- What stands in a slot of the root is taken out and removed. -/
theorem Holds.cut {f : Frame} {c : Subtree} (h : t.Holds (f.fill (some c)) graves) :
    ((t.takeChild f.place).2.removeSubtree c.id).Holds (f.fill none)
      ((c.records none).bury + graves) := by
  refine holds_of_removeSubtree (h.stores.takeChild.2.congr (by abel)) h.dead ?_
  rw [root_takeChild, h.root_eq]
  rfl

/-- There are no nodes but those that can be reached. They are live, they and their children agree
on where these stand, and they are numbered in postorder. -/
structure Tidy (t : Tree) : Prop where
  isLive {id : NodeId} (h : id < t.nodes.size) : t.isLive id = true
  reached {id : NodeId} (h : id < t.nodes.size) : ∃ way, t.follow t.root way = some id
  child_iff {parent child : NodeId} {slot : Nat} :
    t.child parent slot = some child ↔ t.place child = some ⟨parent, slot⟩
  place_root : t.place t.root = none
  postorder_eq : t.postorder = List.range t.nodes.size

/-- A tree that holds a subtree, and no dead nodes, is tidy if the subtree is numbered in
postorder. -/
theorem Holds.tidy (h : t.Holds s 0)
    (hnumbers : s.postorder.map Subtree.id = List.range t.nodes.size) : t.Tidy := by
  have hlinked : (s.records none + 0).Linked := by
    rw [add_zero]
    exact Records.linked_records s
  have hreached : ∀ id < t.nodes.size, ∃ way, t.follow t.root way = some id ∧
      t.isLive id = true := by
    intro id hid
    have hmem : id ∈ s.ids := by
      rw [← h.stores.mem_keys, add_zero, Subtree.keys_records] at hid
      exact Multiset.mem_coe.mp hid
    obtain ⟨path, below, rfl, rfl⟩ := Subtree.exists_path_of_mem hmem
    exact ⟨_, h.follow_foot, h.isLive_foot⟩
  constructor
  case isLive =>
    intro id hid
    obtain ⟨_, _, hlive⟩ := hreached id hid
    exact hlive
  case reached =>
    intro id hid
    obtain ⟨way, hway, _⟩ := hreached id hid
    exact ⟨way, hway⟩
  case child_iff =>
    intro parent child slot
    exact ⟨fun hchild => (h.stores.down hlinked hchild).2,
      fun hplace => (h.stores.up hlinked hplace).2⟩
  case place_root =>
    rw [h.root_eq]
    exact h.stores.place_eq
  case postorder_eq => rw [postorder, h.subtree_eq, hnumbers]

theorem exists_holds_compact (t : Tree) :
    ∃ copy : Subtree, t.compact.Holds copy 0 ∧ copy.bare = (t.subtree t.root).bare ∧
      copy.postorder.map Subtree.id = List.range t.compact.nodes.size :=
  exists_holds_grafted (t.subtree t.root)

/-- Compacting leaves all that does not hang on numbers as it is: the outline, the expression, and
at the end of every way the kind, the value and the vacant slots of the node there. What comes of it
is tidy, and does not change when it is compacted once more. Where no slot was vacant, it is the
tree that the expression is built into, if the expression makes sense. -/
theorem Treelike.compact_tidies (h : t.Treelike) :
    t.compact.outline = t.outline ∧ t.compact.toExpr = t.toExpr ∧
    (∀ way, (t.compact.follow t.compact.root way).map t.compact.features =
      (t.follow t.root way).map t.features) ∧
    t.compact.Tidy ∧ t.compact.compact = t.compact ∧
    ((∀ way id, t.follow t.root way = some id → none ∉ t.slots id) →
      ∀ built, ofExpr t.toExpr = .ok built → t.compact = built) := by
  obtain ⟨copy, hholds, hbare, hnumbers⟩ := t.exists_holds_compact
  have hcopy : t.compact.subtree t.compact.root = copy := hholds.subtree_eq
  refine ⟨?_, ?_, ?_, hholds.tidy hnumbers, ?_, ?_⟩
  · rw [outline, hcopy, ← Subtree.outlineAt_bare, hbare, Subtree.outlineAt_bare]
    rfl
  · rw [toExpr, exprAt, hcopy, ← Subtree.toExpr_bare, hbare, Subtree.toExpr_bare]
    rfl
  · intro way
    rw [← hholds.treelike.features_subtree, hcopy, Subtree.features_of_bare_eq hbare,
      h.features_subtree]
  · rw [compact_eq_grafted t.compact, hcopy, ← grafted_bare, hbare, grafted_bare,
      compact_eq_grafted]
  · intro hfull built hbuilt
    have hsubtree : (t.subtree t.root).full = true :=
      @full_read t t.root [] t.nodes.size h hfull rfl (Nat.le_add_left _ _)
    obtain ⟨_, rfl⟩ := ofExpr_eq_ok.mp hbuilt
    rw [planted_eq_grafted, compact_eq_grafted, toExpr, exprAt,
      ← Subtree.bare_eq_of_full hsubtree, grafted_bare]

/-- The body of a query is taken away, and leaves a vacant slot and two dead nodes. -/
theorem Treelike.compact_tidies_cut :
    let query := planted (.assign "T" (.input1 "t"))
    let t := (query.takeChild ⟨3, 1⟩).2.removeSubtree 2
    t.Treelike ∧ t.nodes.size = 4 ∧ t.outline = "assign\n  constant T\n  <vacant>\n" ∧
      t.compact.nodes.size = 2 ∧ t.compact.outline = t.outline ∧ t.compact.toExpr = t.toExpr ∧
      (∀ way, (t.compact.follow t.compact.root way).map t.compact.features =
        (t.follow t.root way).map t.features) ∧ t.compact.Tidy ∧ t.compact.compact = t.compact := by
  intro query t
  let f : Frame := ⟨3, .assign, none, [some (.node 0 .constant (some (.name "T")) [])], []⟩
  let c : Subtree := .node 2 .input1 none [some (.node 1 .constant (some (.name "t")) [])]
  obtain ⟨s, hholds, _⟩ := exists_holds_planted (.assign "T" (.input1 "t"))
  have hs : f.fill (some c) = s := hholds.subtree_eq
  rw [← hs] at hholds
  have ht : t.Treelike := hholds.cut.treelike
  obtain ⟨houtline, hexpr, hfeatures, htidy, hagain, _⟩ := ht.compact_tidies
  exact ⟨ht, by decide +kernel, by decide +kernel, by decide +kernel, houtline, hexpr, hfeatures,
    htidy, hagain⟩

end Tree

end FlatSelect
