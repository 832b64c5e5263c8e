import FlatSelect.Proofs.Forms

/-!
# Masks

Under a mask the values of some nodes are blanked and the others show. A crossing rewords what
hangs in slot 0 of the two nodes that it is about, so nothing is seen of it once these nodes are
masked (`Subtree.Reworded.mask_eq`). A way down a masked subtree is a way down the subtree that
wears the mask (`Subtree.exists_fill_of_mask`).

Whoever looks at the stored nodes need not see all of them either (`Records.seen`). What is seen
does not depend on the values that are masked if the look is blind to them.
-/

namespace FlatSelect

namespace Subtree

variable {hidden : List NodeId}

mutual
/-- A subtree with the values of the `hidden` nodes blanked. -/
def mask (hidden : List NodeId) : Subtree → Subtree
  | .node id kind value slots =>
    .node id kind (if id ∈ hidden then value.map Value.blank else value) (maskIn hidden slots)
/-- What stands in several slots, masked. -/
def maskIn (hidden : List NodeId) : List (Option Subtree) → List (Option Subtree)
  | [] => []
  | none :: rest => none :: maskIn hidden rest
  | some s :: rest => some (s.mask hidden) :: maskIn hidden rest
end

theorem maskIn_eq_map (slots : List (Option Subtree)) :
    maskIn hidden slots = slots.map (Option.map (mask hidden)) := by
  induction slots with
  | nil => rfl
  | cons child rest ih => cases child <;> simp [maskIn, ih]

@[simp] theorem mask_id (s : Subtree) : (s.mask hidden).id = s.id := by
  cases s
  rfl

theorem mask_slots (s : Subtree) :
    (s.mask hidden).slots = s.slots.map (Option.map (mask hidden)) := by
  cases s
  exact maskIn_eq_map _

theorem mask_child (s : Subtree) (slot : Nat) :
    (s.mask hidden).child slot = (s.child slot).map (mask hidden) := by
  rw [child, child, mask_slots, List.getElem?_map]
  cases s.slots[slot]? <;> rfl

theorem setChild_mask (s : Subtree) (slot : Nat) (hole : Option Subtree) :
    (s.setChild slot hole).mask hidden =
      (s.mask hidden).setChild slot (hole.map (mask hidden)) := by
  obtain ⟨id, kind, value, slots⟩ := s
  simp [setChild, mask, Subtree.id, Subtree.kind, Subtree.value, Subtree.slots, maskIn_eq_map,
    List.map_set]

mutual
theorem preorder_mask : ∀ s : Subtree, (s.mask hidden).preorder = s.preorder.map (mask hidden)
  | .node _ _ _ slots => by
    rw [mask, preorder, preorder, preorderAll_maskIn slots]
    rfl
theorem preorderAll_maskIn :
    ∀ slots, preorderAll (maskIn hidden slots) = (preorderAll slots).map (mask hidden)
  | [] => rfl
  | none :: rest => preorderAll_maskIn rest
  | some s :: rest => by
    rw [maskIn, preorderAll, preorderAll, preorder_mask s, preorderAll_maskIn rest,
      List.map_append]
end

@[simp] theorem ids_mask (s : Subtree) : (s.mask hidden).ids = s.ids := by
  simp [ids, preorder_mask, Function.comp_def]

mutual
/-- A mask over all of a subtree leaves it blank. -/
theorem mask_eq_blank : ∀ {s : Subtree}, (∀ id ∈ s.ids, id ∈ hidden) → s.mask hidden = s.blank
  | .node id kind value slots, h => by
    have htop : id ∈ hidden := h id (by simp [ids, preorder, Subtree.id])
    have hslots := @maskIn_eq_blankIn slots fun n hn =>
      h n.id (List.mem_map_of_mem (List.mem_cons_of_mem _ hn))
    rw [mask, blank, if_pos htop, hslots]
theorem maskIn_eq_blankIn : ∀ {slots : List (Option Subtree)},
    (∀ n ∈ preorderAll slots, n.id ∈ hidden) → maskIn hidden slots = blankIn slots
  | [], _ => rfl
  | none :: _, h => congrArg (none :: ·) (maskIn_eq_blankIn h)
  | some s :: rest, h => by
    have hs : ∀ id ∈ s.ids, id ∈ hidden := by
      intro id hid
      obtain ⟨n, hn, rfl⟩ := List.mem_map.mp hid
      exact h n (List.mem_append_left _ hn)
    have hrest := @maskIn_eq_blankIn rest fun n hn => h n (List.mem_append_right _ hn)
    rw [maskIn, blankIn, mask_eq_blank hs, hrest]
end

theorem ids_eq_of_blank_eq {s s' : Subtree} (h : s'.blank = s.blank) : s'.ids = s.ids := by
  have hids : ∀ s : Subtree, s.blank.ids = s.ids := by
    intro s
    simp [ids, preorder_blank, Function.comp_def]
  rw [← hids, h, hids]

theorem id_eq_of_mask_eq {s s' : Subtree} (h : s'.mask hidden = s.mask hidden) :
    s'.id = s.id := by
  have hid := congrArg id h
  rwa [mask_id, mask_id] at hid

/-! ### Wording -/

/-- The nodes that hang in slot 0. A crossing changes no other node. -/
def wording (s : Subtree) : List NodeId :=
  (s.child 0).elim [] ids

@[simp] theorem wording_mask (s : Subtree) : (s.mask hidden).wording = s.wording := by
  rw [wording, wording, mask_child]
  cases s.child 0 with
  | none => rfl
  | some c => exact c.ids_mask

theorem wording_eq_of_mask_eq {s s' : Subtree} (h : s'.mask hidden = s.mask hidden) :
    s'.wording = s.wording := by
  have hwording := congrArg wording h
  rwa [wording_mask, wording_mask] at hwording

/-- What a crossing has reworded looks as before when its wording is masked. -/
theorem Reworded.mask_eq {s s' : Subtree} (h : s.Reworded s') (hhidden : s.wording ⊆ hidden) :
    s'.mask hidden = s.mask hidden := by
  rcases h.exists_setChild with rfl | ⟨c, c', hc, hblank, rfl⟩
  · rfl
  · have hids : ∀ id ∈ c.ids, id ∈ hidden := by
      intro id hid
      exact hhidden (by rwa [wording, hc])
    have hmask : c'.mask hidden = c.mask hidden := by
      rw [mask_eq_blank (ids_eq_of_blank_eq hblank ▸ hids), mask_eq_blank hids, hblank]
    have hchild : (s.mask hidden).child 0 = some (c.mask hidden) := by
      rw [mask_child, hc]
      rfl
    rw [setChild_mask, Option.map_some, hmask, setChild_child hchild]

end Subtree

namespace Frame

variable {hidden : List NodeId}

/-- A frame, masked. -/
def mask (hidden : List NodeId) (f : Frame) : Frame :=
  ⟨f.id, f.kind, if f.id ∈ hidden then f.value.map Value.blank else f.value,
    Subtree.maskIn hidden f.before, Subtree.maskIn hidden f.after⟩

theorem mask_place (f : Frame) : (f.mask hidden).place = f.place := by
  simp [place, slot, mask, Subtree.maskIn_eq_map]

theorem fill_mask (f : Frame) (hole : Option Subtree) :
    (f.fill hole).mask hidden = (f.mask hidden).fill (hole.map (Subtree.mask hidden)) := by
  simp [fill, Subtree.mask, mask, Subtree.maskIn_eq_map]

theorem fill_mask_congr (f : Frame) {s s' : Subtree} (h : s'.mask hidden = s.mask hidden) :
    (f.fill (some s')).mask hidden = (f.fill (some s)).mask hidden := by
  rw [fill_mask, fill_mask, Option.map_some, h, Option.map_some]

end Frame

namespace Path

variable {hidden : List NodeId}

theorem fill_mask (path : Path) (s : Subtree) :
    (path.fill s).mask hidden = Path.fill (path.map (Frame.mask hidden)) (s.mask hidden) := by
  induction path generalizing s with
  | nil => rfl
  | cons f above ih => exact (ih _).trans (congrArg (Path.fill _) (f.fill_mask (some s)))

theorem fill_mask_congr (path : Path) {s s' : Subtree} (h : s'.mask hidden = s.mask hidden) :
    (path.fill s').mask hidden = (path.fill s).mask hidden := by
  rw [fill_mask, fill_mask, h]

/-- The wording of every node on a way up from a subtree. -/
def wording : Path → Subtree → List NodeId
  | [], _ => []
  | f :: above, s => (f.fill (some s)).wording ++ wording above (f.fill (some s))

theorem wording_eq_of_mask_eq (path : Path) {s s' : Subtree}
    (h : s'.mask hidden = s.mask hidden) : path.wording s' = path.wording s := by
  induction path generalizing s s' with
  | nil => rfl
  | cons f above ih =>
      have hfill := f.fill_mask_congr h
      rw [wording, wording, Subtree.wording_eq_of_mask_eq hfill, ih hfill]

theorem exists_of_mem_wording {path : Path} {s : Subtree} {id : NodeId}
    (h : id ∈ path.wording s) : ∃ (lower : Path) (f : Frame) (upper : Path),
      path = lower ++ f :: upper ∧ id ∈ (f.fill (some (lower.fill s))).wording := by
  induction path generalizing s with
  | nil => exact absurd h List.not_mem_nil
  | cons f above ih =>
      rcases List.mem_append.mp h with h | h
      · exact ⟨[], f, above, rfl, h⟩
      · obtain ⟨lower, f', upper, rfl, hmem⟩ := ih h
        exact ⟨f :: lower, f', upper, rfl, hmem⟩

end Path

namespace Subtree

variable {hidden : List NodeId}

theorem exists_frame_of_mask {s c' : Subtree} {f' : Frame}
    (h : s.mask hidden = f'.fill (some c')) :
    ∃ (f : Frame) (c : Subtree), f.fill (some c) = s ∧ f.mask hidden = f' ∧
      c.mask hidden = c' := by
  obtain ⟨id, kind, value, slots⟩ := s
  obtain ⟨id', kind', value', before', after'⟩ := f'
  simp only [mask, Frame.fill, Subtree.node.injEq, maskIn_eq_map] at h
  obtain ⟨rfl, rfl, rfl, hslots⟩ := h
  obtain ⟨before, rest, rfl, hbefore, hrest⟩ := List.map_eq_append_iff.mp hslots
  obtain ⟨hole, after, rfl, hhole, hafter⟩ := List.map_eq_cons_iff.mp hrest
  obtain ⟨c, rfl, hc⟩ := Option.map_eq_some_iff.mp hhole
  exact ⟨⟨id, kind, value, before, after⟩, c, rfl,
    by simp [Frame.mask, maskIn_eq_map, hbefore, hafter], hc⟩

/-- A way down a masked subtree is a way down the subtree. -/
theorem exists_fill_of_mask {s c' : Subtree} {path' : Path}
    (h : s.mask hidden = path'.fill c') :
    ∃ (path : Path) (c : Subtree), path.fill c = s ∧ path.map (Frame.mask hidden) = path' ∧
      c.mask hidden = c' :=
  Path.exists_fill_of_frames exists_frame_of_mask h

end Subtree

/-! ### Looks at nodes -/

/-- What a look at the nodes shows of some records. -/
def Records.seen (look : NodeId → Node → α) (m : Records) : Multiset (NodeId × α) :=
  m.map fun e => (e.1, look e.1 e.2)

section Looks

variable {look : NodeId → Node → α} {id : NodeId} {hidden : List NodeId}

/-- A look that does not show which children a node has, but for how many slots there are. -/
def Childless (look : NodeId → Node → α) : Prop :=
  ∀ (id : NodeId) (n : Node) (slots : List (Option NodeId)), slots.length = n.slots.length →
    look id { n with slots := slots } = look id n

/-- A look that does not show where a node stands. -/
def Placeless (look : NodeId → Node → α) (id : NodeId) : Prop :=
  ∀ (n : Node) (place : Option Place), look id { n with place := place } = look id n

/-- A look that shows no more of the value of a node than its form. -/
def Wordless (look : NodeId → Node → α) (id : NodeId) : Prop :=
  ∀ (n : Node) (value : Option Value), value.map Value.form = n.value.map Value.form →
    look id { n with value := value } = look id n

theorem Records.seen_add (m m' : Records) : (m + m').seen look = m.seen look + m'.seen look :=
  Multiset.map_add ..

theorem Records.seen_singleton (e : NodeId × Node) :
    ({e} : Records).seen look = {(e.1, look e.1 e.2)} :=
  Multiset.map_singleton ..

namespace Subtree

/-- What is stored for a node, masked. -/
def maskNode (hidden : List NodeId) (e : NodeId × Node) : NodeId × Node :=
  (e.1, { e.2 with
    value := if e.1 ∈ hidden then e.2.value.map Value.blank else e.2.value })

mutual
theorem records_mask (place : Option Place) : ∀ s : Subtree,
    (s.mask hidden).records place = (s.records place).map (maskNode hidden)
  | .node id kind value slots => by
    have htop : (id, ((Subtree.node id kind value slots).mask hidden).top place) =
        maskNode hidden (id, (Subtree.node id kind value slots).top place) := by
      simp [mask, top, maskNode, Subtree.kind, Subtree.value, Subtree.slots, maskIn_eq_map,
        Function.comp_def]
    rw [mask] at htop
    rw [mask, records, records, Multiset.map_add, Multiset.map_singleton, htop,
      recordsIn_maskIn id 0 slots]
theorem recordsIn_maskIn (parent : NodeId) (slot : Nat) : ∀ slots : List (Option Subtree),
    recordsIn parent slot (maskIn hidden slots) =
      (recordsIn parent slot slots).map (maskNode hidden)
  | [] => rfl
  | none :: rest => recordsIn_maskIn parent (slot + 1) rest
  | some s :: rest => by
    rw [maskIn, recordsIn, recordsIn, Multiset.map_add, records_mask (some ⟨parent, slot⟩) s,
      recordsIn_maskIn parent (slot + 1) rest]
end

/-- A look that is blind to what a mask hides does not see the mask. -/
theorem seen_eq_of_mask_eq {s s' : Subtree} (place : Option Place)
    (hlook : ∀ id ∈ hidden, Wordless look id) (h : s'.mask hidden = s.mask hidden) :
    (s'.records place).seen look = (s.records place).seen look := by
  have hmask : ∀ s : Subtree,
      ((s.mask hidden).records place).seen look = (s.records place).seen look := by
    intro s
    rw [records_mask, Records.seen, Multiset.map_map]
    refine Multiset.map_congr rfl fun e _ => Prod.ext rfl ?_
    by_cases hid : e.1 ∈ hidden
    · exact hlook _ hid _ _ (by rw [if_pos hid, Value.map_form_map_blank])
    · simp only [Function.comp_apply, maskNode, if_neg hid]
  rw [← hmask, h, hmask]

theorem seen_records_place {s : Subtree} (h : Placeless look s.id) (place place' : Option Place) :
    (s.records place).seen look = (s.records place').seen look := by
  have htop : look s.id (s.top place) = look s.id (s.top place') := h (s.top place') place
  rw [records_eq, records_eq, Records.seen_add, Records.seen_add, Records.seen_singleton,
    Records.seen_singleton, htop]

end Subtree

namespace Frame

variable {f : Frame}

/-- What is seen of a frame that stands at a place. -/
def seen (look : NodeId → Node → α) (place : Option Place) (f : Frame) :
    Multiset (NodeId × α) :=
  (f.records place none).seen look

theorem seen_records (hlook : Childless look) (place : Option Place) (hole : Option NodeId) :
    (f.records place hole).seen look = f.seen look place := by
  simp only [Frame.seen, Frame.records, Records.seen_add, Records.seen_singleton]
  congr 4
  exact hlook f.id ⟨f.kind, f.value, _, place, true⟩ _ (by simp)

theorem seen_place (h : Placeless look f.id) (place place' : Option Place) :
    f.seen look place = f.seen look place' := by
  simp only [Frame.seen, Frame.records, Records.seen_add, Records.seen_singleton]
  congr 4
  exact h ⟨f.kind, f.value, _, place', true⟩ place

end Frame

namespace Path

/-- What is seen of the nodes on a way up and beside it, if the last of them stands at `top`. -/
def seen (look : NodeId → Node → α) : Path → Option Place → Multiset (NodeId × α)
  | [], _ => 0
  | f :: above, top => f.seen look ((place? above).or top) + seen look above top

theorem seen_append (lower upper : Path) (top : Option Place) :
    seen look (lower ++ upper) top =
      seen look lower ((place? upper).or top) + seen look upper top := by
  induction lower with
  | nil => exact (zero_add _).symm
  | cons f rest ih =>
      have hplace : place? (rest ++ upper) = (place? rest).or (place? upper) := by
        cases rest <;> rfl
      rw [List.cons_append, seen, seen, ih, hplace, Option.or_assoc, add_assoc]

theorem seen_top {path : Path} (h : ∀ f, path.getLast? = some f → Placeless look f.id)
    (top top' : Option Place) : seen look path top = seen look path top' := by
  induction path with
  | nil => rfl
  | cons f above ih =>
      cases above with
      | nil => rw [seen, seen, f.seen_place (h f rfl) _ ((place? []).or top')]; rfl
      | cons f' above' =>
          have habove := ih fun last hlast => h last (by rwa [List.getLast?_cons_cons])
          rw [seen, habove]
          rfl

theorem seen_records (hlook : Childless look) (path : Path) (hole : NodeId) :
    (path.records hole).seen look = path.seen look none := by
  induction path generalizing hole with
  | nil => rfl
  | cons f above ih =>
      rw [records, Records.seen_add, ih, Frame.seen_records hlook, seen, Option.or_none]

/-- A whole is seen as what hangs at the foot of a path and the path itself. -/
theorem seen_fill (hlook : Childless look) (path : Path) (s : Subtree) :
    ((path.fill s).records none).seen look =
      (s.records path.place?).seen look + path.seen look none := by
  rw [records_fill, Records.seen_add, seen_records hlook]

end Path

end Looks

end FlatSelect
