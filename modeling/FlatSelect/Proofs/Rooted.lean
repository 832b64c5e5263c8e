import FlatSelect.Proofs.Consistent
import Mathlib.Data.Finset.Card
import Mathlib.Data.Finset.Range

/-!
# Trees below a root

To say what can be reached in a tree, one need not know how the tree has come about. Where there is
one way at most to each node (`Tree.Treelike`), no way down is as long as there are nodes, so that
all that can be reached is read. It is enough for it that the live nodes are those that can be
reached from the root, and that a live node and its children agree on where these stand. Then the
tree holds the subtree that is read off it, whatever its dead nodes are
(`Tree.Rooted.exists_holds`).
-/

namespace FlatSelect

namespace Subtree

variable {s : Subtree} {slots : List (Option Subtree)}

theorem mem_recordsIn {e : NodeId × Node} {parent : NodeId} {start : Nat} :
    e ∈ recordsIn parent start slots ↔ ∃ (i : Nat) (c : Subtree), slots[i]?.join = some c ∧
      e ∈ c.records (some ⟨parent, start + i⟩) := by
  induction slots generalizing start with
  | nil => simp [recordsIn]
  | cons child rest ih =>
      have hrest : e ∈ recordsIn parent (start + 1) rest ↔ ∃ (i : Nat) (c : Subtree),
          (child :: rest)[i + 1]?.join = some c ∧
            e ∈ c.records (some ⟨parent, start + (i + 1)⟩) := by
        simp only [ih, List.getElem?_cons_succ, Nat.add_assoc, Nat.add_comm 1]
      rw [← Nat.or_exists_add_one, ← hrest]
      cases child with
      | none => simp [recordsIn]
      | some s => simp [recordsIn]

/-- What is stored for a subtree is stored for its top or for what stands in one of its slots. -/
theorem mem_records {e : NodeId × Node} {place : Option Place} :
    e ∈ s.records place ↔ e = (s.id, s.top place) ∨
      ∃ (slot : Nat) (c : Subtree), s.child slot = some c ∧
        e ∈ c.records (some ⟨s.id, slot⟩) := by
  rw [records_eq, Multiset.mem_add, Multiset.mem_singleton, inner, mem_recordsIn]
  simp only [Nat.zero_add, child]

theorem mem_map_id_preorderAll {id : NodeId} :
    id ∈ (preorderAll slots).map Subtree.id ↔
      ∃ (i : Nat) (c : Subtree), slots[i]?.join = some c ∧ id ∈ c.ids := by
  simp only [List.mem_map, mem_preorderAll, ids, Option.join_eq_some_iff]
  constructor
  · rintro ⟨n, ⟨c, hc, hn⟩, rfl⟩
    obtain ⟨i, hi⟩ := List.mem_iff_getElem?.mp hc
    exact ⟨i, c, hi, n, hn, rfl⟩
  · rintro ⟨i, c, hi, n, hn, rfl⟩
    exact ⟨n, ⟨c, List.mem_of_getElem? hi, hn⟩, rfl⟩

theorem mem_ids {id : NodeId} :
    id ∈ s.ids ↔ id = s.id ∨ ∃ slot c, s.child slot = some c ∧ id ∈ c.ids := by
  simp only [child, ← mem_map_id_preorderAll]
  cases s
  exact List.mem_cons

/-- The numbers in several slots are different if those in each slot are, and no two slots have one
in common. -/
theorem nodup_map_id_preorderAll
    (hnodup : ∀ (i : Nat) (c : Subtree), slots[i]?.join = some c → c.ids.Nodup)
    (hapart : ∀ (i j : Nat) (c c' : Subtree) (id : NodeId), slots[i]?.join = some c →
      slots[j]?.join = some c' → id ∈ c.ids → id ∈ c'.ids → i = j) :
    ((preorderAll slots).map Subtree.id).Nodup := by
  induction slots with
  | nil => exact List.nodup_nil
  | cons child rest ih =>
      have hrest := ih (fun i c hc => hnodup (i + 1) c hc) fun i j c c' id hc hc' hid hid' =>
        Nat.succ.inj (hapart (i + 1) (j + 1) c c' id hc hc' hid hid')
      cases child with
      | none => exact hrest
      | some s =>
          rw [preorderAll, List.map_append, List.nodup_append]
          refine ⟨hnodup 0 s rfl, hrest, ?_⟩
          rintro id hid other hother rfl
          obtain ⟨j, c', hc', hid'⟩ := mem_map_id_preorderAll.mp hother
          cases hapart 0 (j + 1) s c' id rfl hc' hid hid'

theorem nodup_ids (htop : ∀ slot c, s.child slot = some c → s.id ∉ c.ids)
    (hnodup : ∀ slot c, s.child slot = some c → c.ids.Nodup)
    (hapart : ∀ slot slot' c c' id, s.child slot = some c → s.child slot' = some c' →
      id ∈ c.ids → id ∈ c'.ids → slot = slot') : s.ids.Nodup := by
  obtain ⟨id, kind, value, slots⟩ := s
  refine List.nodup_cons.mpr ⟨fun hid => ?_, nodup_map_id_preorderAll hnodup hapart⟩
  obtain ⟨slot, c, hc, hid⟩ := mem_map_id_preorderAll.mp hid
  exact htop slot c hc hid

end Subtree

namespace Tree

variable {t : Tree} {id other parent : NodeId} {way below : List Nat} {slot n : Nat}

/-- The live nodes are those that can be reached from the root, and they and their children agree on
where these stand. -/
structure Rooted (t : Tree) : Prop where
  child_iff {parent child : NodeId} {slot : Nat} (h : t.isLive parent = true) :
    t.child parent slot = some child ↔ t.place child = some ⟨parent, slot⟩
  place_root : t.place t.root = none
  isLive_iff {id : NodeId} : t.isLive id = true ↔ ∃ way, t.follow t.root way = some id

/-- From the root one comes to nodes alone, and to each by one way: what can be reached is a tree,
whatever the other numbers hold. -/
structure Treelike (t : Tree) : Prop where
  lt_size {id : NodeId} {way : List Nat} (h : t.follow t.root way = some id) : id < t.nodes.size
  follow_inj {id : NodeId} {way way' : List Nat} (h : t.follow t.root way = some id)
    (h' : t.follow t.root way' = some id) : way = way'

theorem Consistent.rooted (h : t.Consistent) : t.Rooted where
  child_iff _ := h.child_iff
  place_root := h.place_root
  isLive_iff := h.isLive_iff

theorem follow_append (t : Tree) (id : NodeId) (way below : List Nat) :
    t.follow id (way ++ below) = (t.follow id way).bind (t.follow · below) := by
  induction way generalizing id with
  | nil => rfl
  | cons slot way ih =>
      simp only [List.cons_append, follow, Option.bind_assoc]
      exact congrArg _ (funext ih)

theorem lt_size_of_isLive (h : t.isLive id = true) : id < t.nodes.size := by
  by_contra hge
  rw [isLive, node_absent (Nat.le_of_not_lt hge)] at h
  cases h

theorem child_read (t : Tree) (n : Nat) (id : NodeId) (slot : Nat) :
    (t.read (n + 1) id).child slot = (t.child id slot).map (t.read n) := by
  change ((t.slots id).map (Option.map (t.read n)))[slot]?.join = _
  rw [List.getElem?_map, Tree.child]
  cases (t.slots id)[slot]? <;> rfl

theorem id_read (t : Tree) (n : Nat) (id : NodeId) : (t.read n id).id = id := by
  cases n <;> rfl

/-- On a way down one meets different nodes, so it is not as long as there are nodes. -/
theorem Treelike.length_lt (h : t.Treelike) (hway : t.follow t.root way = some id) :
    way.length < t.nodes.size := by
  have hmeets : ∀ i, ∃ met, t.follow t.root (way.take i) = some met := by
    intro i
    rw [← List.take_append_drop i way, follow_append] at hway
    obtain ⟨met, hmet, _⟩ := Option.bind_eq_some_iff.mp hway
    exact ⟨met, hmet⟩
  choose met hmet using hmeets
  have hcard : (Finset.range (way.length + 1)).card ≤ (Finset.range t.nodes.size).card := by
    refine Finset.card_le_card_of_injOn met ?_ ?_
    · intro i _
      exact Finset.mem_coe.mpr (Finset.mem_range.mpr (h.lt_size (hmet i)))
    · intro i hi j hj hij
      have htake := h.follow_inj (hmet i) (hij ▸ hmet j)
      have hlength := congrArg List.length htake
      simp only [Finset.coe_range, Set.mem_Iio] at hi hj
      simp only [List.length_take] at hlength
      omega
  rw [Finset.card_range, Finset.card_range] at hcard
  exact hcard

/-- Induction on what is read below the nodes that can be reached. It goes up from the children, and
does not come to the end of the fuel, since no way down is that long. -/
theorem Treelike.read_induction (h : t.Treelike) {motive : NodeId → Subtree → Prop}
    (step : ∀ way id n, t.follow t.root way = some id → t.nodes.size ≤ way.length + (n + 1) →
      (∀ slot child, t.child id slot = some child →
        t.follow t.root (way ++ [slot]) = some child ∧ motive child (t.read n child)) →
      motive id (t.read (n + 1) id))
    (hway : t.follow t.root way = some id) (hn : t.nodes.size ≤ way.length + n) :
    motive id (t.read n id) := by
  induction n generalizing way id with
  | zero => exact absurd (h.length_lt hway) (Nat.not_lt.mpr hn)
  | succ n ih =>
      refine step way id n hway hn fun slot child hchild => ?_
      have hbelow : t.follow t.root (way ++ [slot]) = some child := by
        rw [follow_concat, hway]
        exact hchild
      refine ⟨hbelow, ih hbelow ?_⟩
      simp only [List.length_append, List.length_singleton]
      omega

namespace Rooted

theorem place_of_child {child : NodeId} (h : t.Rooted)
    (hparent : t.follow t.root way = some parent) (hchild : t.child parent slot = some child) :
    t.place child = some ⟨parent, slot⟩ :=
  (h.child_iff (h.isLive_iff.mpr ⟨way, hparent⟩)).mp hchild

theorem follow_inj {way' : List Nat} (h : t.Rooted) (hway : t.follow t.root way = some id)
    (hway' : t.follow t.root way' = some id) : way = way' :=
  follow_inj_of_place h.place_of_child h.place_root hway hway'

theorem treelike (h : t.Rooted) : t.Treelike where
  lt_size hway := lt_size_of_isLive (h.isLive_iff.mpr ⟨_, hway⟩)
  follow_inj := h.follow_inj

theorem length_lt (h : t.Rooted) (hway : t.follow t.root way = some id) :
    way.length < t.nodes.size :=
  h.treelike.length_lt hway

/-- What has been read below a node is what the nodes there say. -/
theorem node_of_mem_records (h : t.Rooted) (hway : t.follow t.root way = some id)
    (hn : t.nodes.size ≤ way.length + n) :
    ∀ e ∈ (t.read n id).records (t.place id), t.node e.1 = e.2 := by
  refine h.treelike.read_induction
    (motive := fun id s => ∀ e ∈ s.records (t.place id), t.node e.1 = e.2) ?_ hway hn
  intro way id n hway _ ih e he
  rcases Subtree.mem_records.mp he with rfl | ⟨slot, c, hc, he⟩
  · have hlive : (t.node id).live = true := h.isLive_iff.mpr ⟨way, hway⟩
    have hslots : ((t.slots id).map (Option.map (t.read n))).map (Option.map Subtree.id) =
        t.slots id := by
      rw [List.map_map]
      refine List.map_id'' (fun child => ?_) _
      cases child <;> simp [id_read]
    change t.node id = ⟨t.kind id, t.value id,
      ((t.slots id).map (Option.map (t.read n))).map (Option.map Subtree.id), t.place id, true⟩
    rw [hslots, ← hlive]
    rfl
  · rw [child_read] at hc
    obtain ⟨child, hchild, rfl⟩ := Option.map_eq_some_iff.mp hc
    rw [id_read, ← h.place_of_child hway hchild] at he
    exact (ih slot child hchild).2 e he

/-- The nodes that are read below a node are those that can be reached from it. -/
theorem mem_ids_read (h : t.Rooted) (hway : t.follow t.root way = some id)
    (hn : t.nodes.size ≤ way.length + n) :
    other ∈ (t.read n id).ids ↔ ∃ below, t.follow id below = some other := by
  refine h.treelike.read_induction
    (motive := fun id s => other ∈ s.ids ↔ ∃ below, t.follow id below = some other) ?_ hway hn
  intro way id n _ _ ih
  rw [Subtree.mem_ids, id_read]
  constructor
  · rintro (rfl | ⟨slot, c, hc, hother⟩)
    · exact ⟨[], rfl⟩
    · rw [child_read] at hc
      obtain ⟨child, hchild, rfl⟩ := Option.map_eq_some_iff.mp hc
      obtain ⟨below, hfollow⟩ := (ih slot child hchild).2.mp hother
      exact ⟨slot :: below, by rw [follow, hchild]; exact hfollow⟩
  · rintro ⟨below, hfollow⟩
    cases below with
    | nil =>
        cases hfollow
        exact .inl rfl
    | cons slot below =>
        obtain ⟨child, hchild, hfollow⟩ := Option.bind_eq_some_iff.mp hfollow
        refine .inr ⟨slot, t.read n child, by rw [child_read, hchild]; rfl, ?_⟩
        exact (ih slot child hchild).2.mpr ⟨below, hfollow⟩

theorem nodup_ids_read (h : t.Rooted) (hway : t.follow t.root way = some id)
    (hn : t.nodes.size ≤ way.length + n) : (t.read n id).ids.Nodup := by
  refine h.treelike.read_induction (motive := fun _ s => s.ids.Nodup) ?_ hway hn
  intro way id n hway hn ih
  -- Whatever is in a slot is reached by a way that begins with it.
  have hreach : ∀ slot c other, (t.read (n + 1) id).child slot = some c → other ∈ c.ids →
      ∃ below, t.follow t.root (way ++ slot :: below) = some other := by
    intro slot c other hc hother
    rw [child_read] at hc
    obtain ⟨child, hchild, rfl⟩ := Option.map_eq_some_iff.mp hc
    obtain ⟨hfollow, _⟩ := ih slot child hchild
    have hlength : t.nodes.size ≤ (way ++ [slot]).length + n := by
      simp only [List.length_append, List.length_singleton]
      omega
    obtain ⟨below, hbelow⟩ := (h.mem_ids_read hfollow hlength).mp hother
    refine ⟨below, ?_⟩
    rw [List.append_cons, follow_append, hfollow]
    exact hbelow
  refine Subtree.nodup_ids ?_ ?_ ?_
  · intro slot c hc htop
    rw [id_read] at htop
    obtain ⟨below, hbelow⟩ := hreach slot c id hc htop
    have hlength := congrArg List.length (h.follow_inj hway hbelow)
    simp at hlength
  · intro slot c hc
    rw [child_read] at hc
    obtain ⟨child, hchild, rfl⟩ := Option.map_eq_some_iff.mp hc
    exact (ih slot child hchild).2
  · intro slot slot' c c' other hc hc' hother hother'
    obtain ⟨below, hbelow⟩ := hreach slot c other hc hother
    obtain ⟨below', hbelow'⟩ := hreach slot' c' other hc' hother'
    have hsame := List.append_cancel_left (h.follow_inj hbelow hbelow')
    exact (List.cons.inj hsame).1

theorem mem_ids_subtree (h : t.Rooted) (hway : t.follow t.root way = some id) :
    other ∈ (t.subtree id).ids ↔ ∃ below, t.follow id below = some other :=
  h.mem_ids_read hway (Nat.le_add_left _ _)

theorem mem_preorder (h : t.Rooted) :
    id ∈ t.preorder ↔ ∃ way, t.follow t.root way = some id :=
  @mem_ids_subtree t t.root id [] h rfl

theorem nodup_preorder (h : t.Rooted) : t.preorder.Nodup :=
  @nodup_ids_read t t.root [] t.nodes.size h rfl (Nat.le_add_left _ _)

/-- A tree holds what can be read off it below the root. -/
theorem exists_holds (h : t.Rooted) : ∃ graves, t.Holds (t.subtree t.root) graves := by
  let dead : Multiset NodeId := (Multiset.range t.nodes.size).filter fun id => t.isLive id = false
  let graves : Records := dead.map fun id => (id, t.node id)
  have hlive : ∀ id, id ∈ (t.subtree t.root).ids ↔ t.isLive id = true := fun id =>
    h.mem_preorder.trans h.isLive_iff.symm
  have hgraves : graves.map Prod.fst = dead := by
    simp [graves, Multiset.map_map]
  have hdead : ∀ id, id ∈ dead ↔ id < t.nodes.size ∧ t.isLive id = false := fun id => by
    simp [dead]
  refine ⟨graves, ⟨?_, ?_, ?_⟩, ?_, (id_read t _ _).symm⟩
  · rw [Multiset.map_add, Subtree.keys_records, hgraves, Multiset.nodup_add]
    refine ⟨Multiset.coe_nodup.mpr h.nodup_preorder,
      (Multiset.nodup_range _).filter _, ?_⟩
    rw [Multiset.disjoint_left]
    intro id hid hid'
    exact absurd ((hlive id).mp (Multiset.mem_coe.mp hid)) (by rw [((hdead id).mp hid').2]; decide)
  · intro e he
    rcases Multiset.mem_add.mp he with he | he
    · rw [← h.place_root] at he
      exact @node_of_mem_records t t.root [] t.nodes.size h rfl (Nat.le_add_left _ _) e he
    · obtain ⟨id, _, rfl⟩ := Multiset.mem_map.mp he
      rfl
  · intro id
    rw [Multiset.map_add, Subtree.keys_records, hgraves, Multiset.mem_add, Multiset.mem_coe,
      hlive, hdead]
    constructor
    · rintro (hid | ⟨hid, _⟩)
      · exact lt_size_of_isLive hid
      · exact hid
    · intro hid
      cases hid' : t.isLive id with
      | true => exact .inl rfl
      | false => exact .inr ⟨hid, rfl⟩
  · intro e he
    obtain ⟨id, hid, rfl⟩ := Multiset.mem_map.mp he
    exact ((hdead id).mp hid).2

end Rooted

end Tree

end FlatSelect
