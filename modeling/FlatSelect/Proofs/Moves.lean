import FlatSelect.Proofs.Frame

/-!
# Moving subtrees

A subtree that stands nowhere can be put into a slot, and what stands in a slot can be taken out or
driven out. Each move is stated by the records that are stored before and after it. It leaves the
root as it was, makes no node, and all other records stay (`m` in the statements).
-/

namespace FlatSelect

namespace Tree

@[simp] theorem root_setPlace (t : Tree) (id : NodeId) (place : Option Place) :
    (t.setPlace id place).root = t.root := rfl

@[simp] theorem size_setPlace (t : Tree) (id : NodeId) (place : Option Place) :
    (t.setPlace id place).nodes.size = t.nodes.size :=
  size_update ..

@[simp] theorem root_setSlot (t : Tree) (place : Place) (child : Option NodeId) :
    (t.setSlot place child).root = t.root := rfl

@[simp] theorem size_setSlot (t : Tree) (place : Place) (child : Option NodeId) :
    (t.setSlot place child).nodes.size = t.nodes.size :=
  size_update ..

@[simp] theorem root_setValue (t : Tree) (id : NodeId) (value : Value) :
    (t.setValue id value).root = t.root := rfl

@[simp] theorem size_setValue (t : Tree) (id : NodeId) (value : Value) :
    (t.setValue id value).nodes.size = t.nodes.size :=
  size_update ..

@[simp] theorem root_detach (t : Tree) (id : NodeId) : (t.detach id).root = t.root := by
  unfold detach
  split <;> rfl

@[simp] theorem size_detach (t : Tree) (id : NodeId) :
    (t.detach id).nodes.size = t.nodes.size := by
  unfold detach
  split <;> simp

theorem detach_of_place_none {t : Tree} {id : NodeId} (h : t.place id = none) :
    t.detach id = t := by
  simp [detach, h]

@[simp] theorem root_takeChild (t : Tree) (place : Place) :
    (t.takeChild place).2.root = t.root := by
  unfold takeChild
  split <;> rfl

@[simp] theorem size_takeChild (t : Tree) (place : Place) :
    (t.takeChild place).2.nodes.size = t.nodes.size := by
  unfold takeChild
  split <;> simp

@[simp] theorem root_setChild (t : Tree) (place : Place) (child : NodeId) :
    (t.setChild place child).root = t.root := by
  simp only [setChild, root_setPlace]
  cases Option.filter (· ≠ child) ((t.detach child).child place.parent place.slot) <;> simp

@[simp] theorem size_setChild (t : Tree) (place : Place) (child : NodeId) :
    (t.setChild place child).nodes.size = t.nodes.size := by
  simp only [setChild, size_setPlace]
  cases Option.filter (· ≠ child) ((t.detach child).child place.parent place.slot) <;> simp

@[simp] theorem root_removeSubtree (t : Tree) (id : NodeId) :
    (t.removeSubtree id).root = t.root := by
  simp [removeSubtree]

@[simp] theorem size_removeSubtree (t : Tree) (id : NodeId) :
    (t.removeSubtree id).nodes.size = t.nodes.size := by
  simp [removeSubtree]

namespace Stores

variable {t : Tree} {m : Records} {f : Frame} {place : Option Place} {c : Subtree}

/-- A subtree is told a new place. -/
theorem setPlace_subtree {old : Option Place} (h : t.Stores (c.records old + m))
    (new : Option Place) : (t.setPlace c.id new).Stores (c.records new + m) := by
  have hc : t.Stores ({(c.id, c.top old)} + (c.inner + m)) :=
    h.congr (by rw [Subtree.records_eq]; abel)
  exact (hc.setPlace new).congr (by rw [Subtree.records_eq, Subtree.top, Subtree.top]; abel)

/-- A frame is told what stands in its open slot. -/
theorem setSlot_frame {old : Option NodeId} (h : t.Stores (f.records place old + m))
    (new : Option NodeId) : (t.setSlot f.place new).Stores (f.records place new + m) := by
  rw [Frame.records, add_assoc, add_assoc] at h
  refine (h.setSlot f.slot new).congr ?_
  have hlist : (f.before.map (Option.map Subtree.id) ++ old ::
      f.after.map (Option.map Subtree.id)).set f.slot new =
      f.before.map (Option.map Subtree.id) ++ new :: f.after.map (Option.map Subtree.id) := by
    simp [Frame.slot]
  simp only [hlist, Frame.records, add_assoc]

/-- What stands in the open slot of a frame is taken out. -/
theorem takeChild (h : t.Stores ((f.fill (some c)).records place + m)) :
    (t.takeChild f.place).1 = some c.id ∧
      (t.takeChild f.place).2.Stores
        ((f.fill none).records place + (c.records none + m)) := by
  have hchild : t.child f.place.parent f.place.slot = some c.id := by
    have hc := h.child_eq f.slot
    rwa [Frame.child_fill] at hc
  have hframe : t.Stores (f.records place (some c.id) + (c.records (some f.place) + m)) :=
    h.congr (by rw [Frame.records_fill_some]; abel)
  have hslot := hframe.setSlot_frame none
  have hplace := setPlace_subtree (c := c) (m := f.records place none + m)
    (hslot.congr (by abel)) none
  have heq : t.takeChild f.place = (some c.id, (t.setSlot f.place none).setPlace c.id none) := by
    simp [Tree.takeChild, hchild]
  rw [heq]
  exact ⟨rfl, hplace.congr (by rw [Frame.records_fill_none]; abel)⟩

/-- A subtree that stands nowhere is put into a slot. What stood there then stands nowhere. -/
theorem setChild {hole : Option Subtree}
    (h : t.Stores ((f.fill hole).records place + (c.records none + m))) :
    (t.setChild f.place c.id).Stores
      ((f.fill (some c)).records place + (Subtree.loose [hole] + m)) := by
  have hc : t.Stores (c.records none + ((f.fill hole).records place + m)) := h.congr (by abel)
  have hchild : t.child f.place.parent f.place.slot = hole.map Subtree.id := by
    have hchild := h.child_eq f.slot
    rwa [Frame.child_fill] at hchild
  have hplaced : ∀ {t' : Tree},
      t'.Stores (f.records place (some c.id) + (c.records none + (Subtree.loose [hole] + m))) →
      (t'.setPlace c.id (some f.place)).Stores
        ((f.fill (some c)).records place + (Subtree.loose [hole] + m)) := by
    intro t' h'
    have hp := setPlace_subtree (c := c)
      (m := f.records place (some c.id) + (Subtree.loose [hole] + m))
      (h'.congr (by abel)) (some f.place)
    exact hp.congr (by rw [Frame.records_fill_some]; abel)
  simp only [Tree.setChild, detach_of_place_none hc.place_eq, hchild]
  cases hole with
  | none =>
      rw [Frame.records_fill_none] at h
      exact hplaced ((h.setSlot_frame (some c.id)).congr (by simp [Subtree.loose]))
  | some old =>
      have hne : old.id ≠ c.id :=
        @key_ne _ _ _ (old.id, old.top (some f.place)) (c.id, c.top none) h
          (by rw [Frame.records_fill_some, Subtree.records_eq _ old]; simp)
          (by rw [Subtree.records_eq]; simp)
      have hframe : t.Stores (f.records place (some old.id) +
          (old.records (some f.place) + (c.records none + m))) :=
        h.congr (by rw [Frame.records_fill_some]; abel)
      have hslot := hframe.setSlot_frame (some c.id)
      have hout := setPlace_subtree (c := old)
        (m := f.records place (some c.id) + (c.records none + m)) (hslot.congr (by abel)) none
      have hfilter : Option.filter (fun x => decide (x ≠ c.id)) (Option.map Subtree.id (some old)) =
          some old.id := by
        simp [hne]
      rw [hfilter]
      exact hplaced (hout.congr (by simp only [Subtree.loose]; abel))

/-- A subtree that stands nowhere is removed: its nodes keep their records, but are dead. -/
theorem removeSubtree (h : t.Stores (c.records none + m)) :
    (t.removeSubtree c.id).Stores ((c.records none).bury + m) := by
  rw [Tree.removeSubtree, detach_of_place_none h.place_eq, h.subtree_eq]
  exact h.bury (Subtree.keys_records none c)

end Stores

end Tree

end FlatSelect
