import FlatSelect.Proofs.Records

/-!
# Nodes in their surroundings

A subtree stands in a slot of its parent, the parent in a slot of the node above it, and so on to
the root. A frame is a node without what stands in one of its slots, and a path is the list of
frames on the way up, the nearest first. Filling the path with the subtree gives the whole back.

The records of a whole are those of the subtree and those of the path (`Path.records_fill`), so
what an operation does at a node says nothing about the rest of the tree. Everything that is read
off a tree at a number is read off the subtree whose records it stores.
-/

namespace FlatSelect

/-- A node without what stands in one of its slots. -/
structure Frame where
  id : NodeId
  kind : Kind
  value : Option Value
  /-- The slots before the open one. -/
  before : List (Option Subtree)
  /-- The slots after the open one. -/
  after : List (Option Subtree)

namespace Frame

/-- The open slot. -/
def slot (f : Frame) : Nat :=
  f.before.length

/-- The place that is open. -/
def place (f : Frame) : Place :=
  ⟨f.id, f.slot⟩

/-- The node with something in the open slot, or with nothing there. -/
def fill (f : Frame) (hole : Option Subtree) : Subtree :=
  .node f.id f.kind f.value (f.before ++ hole :: f.after)

/-- What is stored for the node and for what stands in its other slots. -/
def records (place : Option Place) (hole : Option NodeId) (f : Frame) : Records :=
  {(f.id, (⟨f.kind, f.value, f.before.map (Option.map Subtree.id) ++ hole ::
    f.after.map (Option.map Subtree.id), place, true⟩ : Node))} +
    Subtree.recordsIn f.id 0 f.before + Subtree.recordsIn f.id (f.slot + 1) f.after

variable (f : Frame) (place : Option Place) (s : Subtree)

@[simp] theorem fill_id (hole : Option Subtree) : (f.fill hole).id = f.id := rfl

@[simp] theorem fill_kind (hole : Option Subtree) : (f.fill hole).kind = f.kind := rfl

@[simp] theorem fill_value (hole : Option Subtree) : (f.fill hole).value = f.value := rfl

@[simp] theorem fill_slots (hole : Option Subtree) :
    (f.fill hole).slots = f.before ++ hole :: f.after := rfl

@[simp] theorem child_fill (hole : Option Subtree) : (f.fill hole).child f.slot = hole := by
  simp [Subtree.child, slot]

theorem records_fill_none : (f.fill none).records place = f.records place none := by
  simp [fill, Subtree.records, Subtree.recordsIn_append, Subtree.recordsIn, records, Subtree.top,
    Subtree.kind, Subtree.value, Subtree.slots, slot]

theorem records_fill_some :
    (f.fill (some s)).records place = f.records place (some s.id) + s.records (some f.place) := by
  simp only [fill, Subtree.records, Subtree.recordsIn_append, Subtree.recordsIn, records,
    Subtree.top, Subtree.kind, Subtree.value, Subtree.slots, slot, Frame.place, List.map_append,
    List.map_cons, Option.map_some, Nat.zero_add]
  abel

end Frame

namespace Subtree

/-- A slot, vacant or not, opens in a frame. -/
theorem exists_frame_of_slot {s : Subtree} {hole : Option Subtree} {slot : Nat}
    (h : s.slots[slot]? = some hole) : ∃ f : Frame, f.fill hole = s ∧ f.slot = slot := by
  obtain ⟨id, kind, value, slots⟩ := s
  have hget : slots[slot]? = some hole := h
  obtain ⟨hlt, hhole⟩ := List.getElem?_eq_some_iff.mp hget
  refine ⟨⟨id, kind, value, slots.take slot, slots.drop (slot + 1)⟩, ?_, ?_⟩
  · have hlist : slots.take slot ++ slots[slot] :: slots.drop (slot + 1) = slots := by
      rw [List.cons_getElem_drop_succ, List.take_append_drop]
    rw [← hhole]
    exact congrArg (Subtree.node id kind value) hlist
  · simp [Frame.slot, Nat.min_eq_left (Nat.le_of_lt hlt)]

/-- What stands in a slot stands in a frame. -/
theorem exists_frame {s c : Subtree} {slot : Nat} (h : s.child slot = some c) :
    ∃ f : Frame, f.fill (some c) = s ∧ f.slot = slot :=
  exists_frame_of_slot (Option.join_eq_some_iff.mp h)

end Subtree

/-- The way up from a subtree, the parent's frame first. -/
abbrev Path := List Frame

namespace Path

/-- The whole that a path and a subtree make. -/
def fill : Path → Subtree → Subtree
  | [], s => s
  | f :: above, s => fill above (f.fill (some s))

/-- The place that is open at the foot of a path. -/
def place? : Path → Option Place
  | [] => none
  | f :: _ => some f.place

/-- What is stored for the nodes on the way up and beside it. -/
def records : Path → NodeId → Records
  | [], _ => 0
  | f :: above, hole => f.records (place? above) (some hole) + records above f.id

@[simp] theorem fill_nil (s : Subtree) : fill [] s = s := rfl

@[simp] theorem fill_cons (f : Frame) (above : Path) (s : Subtree) :
    fill (f :: above) s = fill above (f.fill (some s)) := rfl

theorem fill_append (lower upper : Path) (s : Subtree) :
    fill (lower ++ upper) s = fill upper (fill lower s) := by
  induction lower generalizing s with
  | nil => rfl
  | cons f rest ih => exact ih _

@[simp] theorem place?_nil : place? [] = none := rfl

@[simp] theorem place?_cons (f : Frame) (above : Path) : place? (f :: above) = some f.place := rfl

theorem records_fill (path : Path) (s : Subtree) :
    (path.fill s).records none = s.records path.place? + path.records s.id := by
  induction path generalizing s with
  | nil => simp [records]
  | cons f above ih =>
      rw [fill_cons, ih, Frame.records_fill_some, records, place?_cons, Frame.fill_id]
      abel

/-- The top of a whole is the last frame on the way up. -/
theorem id_fill (path : Path) (s : Subtree) :
    (path.fill s).id = (path.getLast?.map Frame.id).getD s.id := by
  induction path generalizing s with
  | nil => rfl
  | cons f above ih =>
      rw [fill_cons, ih]
      cases above <;> simp [List.getLast?_cons]

/-- An operation under which frames can be found again is one under which ways down can. -/
theorem exists_fill_of_frames {F : Subtree → Subtree} {onFrame : Frame → Frame}
    (hframe : ∀ {s c' : Subtree} {f' : Frame}, F s = f'.fill (some c') →
      ∃ (f : Frame) (c : Subtree), f.fill (some c) = s ∧ onFrame f = f' ∧ F c = c')
    {s c' : Subtree} {path' : Path} (h : F s = path'.fill c') :
    ∃ (path : Path) (c : Subtree), path.fill c = s ∧ path.map onFrame = path' ∧ F c = c' := by
  induction path' generalizing c' with
  | nil => exact ⟨[], s, rfl, rfl, h⟩
  | cons f' above' ih =>
      obtain ⟨above, parent, hfill, habove, hparent⟩ := ih h
      obtain ⟨f, c, rfl, rfl, rfl⟩ := hframe hparent
      exact ⟨f :: above, c, hfill, by rw [← habove]; rfl, rfl⟩

/-- What stands at the foot does not matter to the number of the top, unless it is the top. -/
theorem id_fill_congr (path : Path) {s s' : Subtree} (h : s'.id = s.id) :
    (path.fill s').id = (path.fill s).id := by
  rw [id_fill, id_fill, h]

end Path

namespace Tree

namespace Stores

variable {t : Tree} {m : Records} {s c : Subtree} {place : Option Place}

theorem node_top (h : t.Stores (s.records place + m)) : t.node s.id = s.top place :=
  h.node_eq (s.id, s.top place) (by rw [Subtree.records_eq]; simp)

theorem kind_eq (h : t.Stores (s.records place + m)) : t.kind s.id = s.kind :=
  congrArg Node.kind h.node_top

theorem value_eq (h : t.Stores (s.records place + m)) : t.value s.id = s.value :=
  congrArg Node.value h.node_top

theorem place_eq (h : t.Stores (s.records place + m)) : t.place s.id = place :=
  congrArg Node.place h.node_top

theorem slots_eq (h : t.Stores (s.records place + m)) :
    t.slots s.id = s.slots.map (Option.map Subtree.id) :=
  congrArg Node.slots h.node_top

theorem child_eq (h : t.Stores (s.records place + m)) (slot : Nat) :
    t.child s.id slot = (s.child slot).map Subtree.id := by
  rw [Tree.child, h.slots_eq, Subtree.child, List.getElem?_map]
  cases s.slots[slot]? <;> rfl

/-- A tree that stores a subtree stores what stands in its slots. -/
theorem below {f : Frame} (h : t.Stores ((f.fill (some c)).records place + m)) :
    t.Stores (c.records (some f.place) + (f.records place (some c.id) + m)) :=
  h.congr (by rw [Frame.records_fill_some]; abel)

theorem exists_below {slot : Nat} (h : t.Stores (s.records place + m))
    (hc : s.child slot = some c) :
    ∃ m', t.Stores (c.records (some ⟨s.id, slot⟩) + m') := by
  obtain ⟨f, rfl, rfl⟩ := Subtree.exists_frame hc
  exact ⟨_, h.below⟩

theorem slotValue_eq (h : t.Stores (s.records place + m)) (slot : Nat) :
    t.slotValue s.id slot = s.slotValue slot := by
  rw [Tree.slotValue, h.child_eq, Subtree.slotValue]
  cases hc : s.child slot with
  | none => rfl
  | some c =>
      obtain ⟨_, hbelow⟩ := h.exists_below hc
      exact hbelow.value_eq

theorem length_ids_le (h : t.Stores (s.records place + m)) : s.ids.length ≤ t.nodes.size := by
  have hcard : s.ids.length = (s.records place).card := by
    simpa using (congrArg Multiset.card (Subtree.keys_records place s)).symm
  rw [hcard]
  exact (Multiset.card_le_card (Multiset.le_add_right _ m)).trans h.card_le

theorem nodup_ids (h : t.Stores (s.records place + m)) : s.ids.Nodup := by
  have hnodup := h.nodup
  rw [Multiset.map_add, Multiset.nodup_add, Subtree.keys_records] at hnodup
  exact Multiset.coe_nodup.mp hnodup.1

end Stores

mutual
theorem read_eq (t : Tree) (n : Nat) (place : Option Place) : ∀ s : Subtree,
    (∀ e ∈ s.records place, t.node e.1 = e.2) → s.ids.length ≤ n → t.read n s.id = s
  | .node id kind value slots, hnode, hn => by
    have hlen : (Subtree.preorderAll slots).length + 1 ≤ n := by
      simpa [Subtree.ids, Subtree.preorder] using hn
    have htop := hnode (id, Subtree.top place (.node id kind value slots))
      (by simp [Subtree.records])
    have hslots := readAll_eq t (n - 1) id 0 slots
      (fun e he => hnode e (by simp [Subtree.records, he])) (by omega)
    obtain ⟨k, rfl⟩ : ∃ k, n = k + 1 := ⟨n - 1, by omega⟩
    have hkind : t.kind id = kind := congrArg Node.kind htop
    have hvalue : t.value id = value := congrArg Node.value htop
    have hsl : t.slots id = slots.map (Option.map Subtree.id) := congrArg Node.slots htop
    change Subtree.node id (t.kind id) (t.value id) ((t.slots id).map (Option.map (t.read k))) = _
    rw [hkind, hvalue, hsl, List.map_map]
    exact congrArg (Subtree.node id kind value) hslots
theorem readAll_eq (t : Tree) (n : Nat) (parent : NodeId) (slot : Nat) :
    ∀ slots : List (Option Subtree),
    (∀ e ∈ Subtree.recordsIn parent slot slots, t.node e.1 = e.2) →
    (Subtree.preorderAll slots).length ≤ n →
    slots.map (Option.map (t.read n) ∘ Option.map Subtree.id) = slots
  | [], _, _ => rfl
  | none :: rest, hnode, hn => by
    have hrest := readAll_eq t n parent (slot + 1) rest hnode hn
    simp only [List.map_cons, hrest, Function.comp_apply, Option.map_none]
  | some s :: rest, hnode, hn => by
    rw [Subtree.preorderAll, List.length_append] at hn
    have hs := read_eq t n (some ⟨parent, slot⟩) s
      (fun e he => hnode e (by simp [Subtree.recordsIn, he]))
      (by simpa [Subtree.ids] using Nat.le_trans (Nat.le_add_right _ _) hn)
    have hrest := readAll_eq t n parent (slot + 1) rest
      (fun e he => hnode e (by simp [Subtree.recordsIn, he]))
      (Nat.le_trans (Nat.le_add_left _ _) hn)
    simp only [List.map_cons, hrest, Function.comp_apply, Option.map_some, hs]
end

namespace Stores

variable {t : Tree} {m : Records} {s c : Subtree} {place : Option Place}

/-- What hangs below a number is the subtree whose records are stored. -/
theorem subtree_eq (h : t.Stores (s.records place + m)) : t.subtree s.id = s :=
  read_eq t _ place s (fun e he => h.node_eq e (Multiset.mem_add.mpr (.inl he))) h.length_ids_le

/-- The places on the way up are those of the path. -/
theorem climb_eq {path : Path} {n : Nat}
    (h : t.Stores (s.records path.place? + (path.records s.id + m))) (hn : path.length ≤ n) :
    t.climb n s.id = path.map Frame.place := by
  induction path generalizing s n m with
  | nil =>
      cases n with
      | zero => rfl
      | succ n => simp [climb, h.place_eq]
  | cons f above ih =>
      obtain ⟨k, rfl⟩ : ∃ k, n = k + 1 := ⟨n - 1, by simp only [List.length_cons] at hn; omega⟩
      have hup : t.Stores ((f.fill (some s)).records (Path.place? above) +
          (Path.records above f.id + m)) :=
        h.congr (by
          rw [Frame.records_fill_some, Path.records, Path.place?_cons]
          abel)
      have hrest := ih hup (by simpa using hn)
      rw [climb, h.place_eq]
      simpa [Frame.place] using hrest

theorem length_path_le {path : Path} (h : t.Stores (path.records s.id + m)) :
    path.length ≤ t.nodes.size := by
  refine Nat.le_trans ?_ h.card_le
  rw [Multiset.card_add]
  refine Nat.le_trans ?_ (Nat.le_add_right _ _)
  clear h
  induction path generalizing s with
  | nil => exact Nat.zero_le _
  | cons f above ih =>
      have hone : 1 ≤ (f.records (Path.place? above) (some s.id)).card := by
        simp only [Frame.records, Multiset.card_add, Multiset.card_singleton]
        omega
      have hrest := ih (s := f.fill none)
      rw [Frame.fill_id] at hrest
      rw [Path.records, Multiset.card_add, List.length_cons]
      omega

end Stores

end Tree

end FlatSelect
