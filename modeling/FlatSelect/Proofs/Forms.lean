import FlatSelect.Proofs.Crossing

/-!
# What no crossing changes

A crossing changes names and parameters, but never the form of a value, the kind of a node or who
hangs below whom. A blanked subtree has the plainest value of each form in place of its values, so
it shows just what stays: a crossing that rewords a subtree leaves the blanked one as it is
(`Subtree.Reworded.blank_eq`). Whatever can be read off a blanked subtree is the same before and
after a crossing.
-/

namespace FlatSelect

namespace Value

/-- The plainest value of the same form. -/
def blank : Value → Value
  | name _ => name ""
  | columns _ => columns []
  | rename _ _ => rename "" ""
  | derived _ _ => derived "" ""

@[simp] theorem form_blank (v : Value) : v.blank.form = v.form := by
  cases v <;> rfl

@[simp] theorem map_form_map_blank (v : Option Value) :
    (v.map blank).map form = v.map form := by
  cases v <;> simp

theorem blank_eq_of_form {v w : Value} (h : v.form = w.form) : v.blank = w.blank := by
  cases v <;> cases w <;> first | rfl | exact absurd h (by simp [form])

end Value

namespace Subtree

mutual
/-- A subtree with its values blanked. -/
def blank : Subtree → Subtree
  | .node id kind value slots => .node id kind (value.map Value.blank) (blankIn slots)
/-- What stands in several slots, with the values blanked. -/
def blankIn : List (Option Subtree) → List (Option Subtree)
  | [] => []
  | none :: rest => none :: blankIn rest
  | some s :: rest => some s.blank :: blankIn rest
end

theorem blankIn_eq_map (slots : List (Option Subtree)) :
    blankIn slots = slots.map (Option.map blank) := by
  induction slots with
  | nil => rfl
  | cons child rest ih => cases child <;> simp [blankIn, ih]

@[simp] theorem blank_id (s : Subtree) : s.blank.id = s.id := by
  cases s
  rfl

@[simp] theorem blank_kind (s : Subtree) : s.blank.kind = s.kind := by
  cases s
  rfl

@[simp] theorem blank_value (s : Subtree) : s.blank.value = s.value.map Value.blank := by
  cases s
  rfl

theorem blank_slots (s : Subtree) : s.blank.slots = s.slots.map (Option.map blank) := by
  cases s
  exact blankIn_eq_map _

theorem blank_child (s : Subtree) (slot : Nat) : s.blank.child slot = (s.child slot).map blank := by
  rw [child, child, blank_slots, List.getElem?_map]
  cases s.slots[slot]? <;> rfl

theorem blank_slotValue (s : Subtree) (slot : Nat) :
    s.blank.slotValue slot = (s.slotValue slot).map Value.blank := by
  rw [slotValue, slotValue, blank_child]
  cases s.child slot with
  | none => rfl
  | some c => exact c.blank_value

theorem setChild_blank (s : Subtree) (slot : Nat) (hole : Option Subtree) :
    (s.setChild slot hole).blank = s.blank.setChild slot (hole.map blank) := by
  obtain ⟨id, kind, value, slots⟩ := s
  simp [setChild, blank, Subtree.id, Subtree.kind, Subtree.value, Subtree.slots, blankIn_eq_map,
    List.map_set]

/-- What stands in a slot may be put there anew. -/
theorem setChild_child {s c : Subtree} {slot : Nat} (h : s.child slot = some c) :
    s.setChild slot (some c) = s := by
  obtain ⟨f, rfl, rfl⟩ := exists_frame h
  rw [setChild_fill]

mutual
theorem preorder_blank : ∀ s : Subtree, s.blank.preorder = s.preorder.map blank
  | .node _ _ _ slots => by
    rw [blank, preorder, preorder, preorderAll_blankIn slots]
    rfl
theorem preorderAll_blankIn : ∀ slots, preorderAll (blankIn slots) = (preorderAll slots).map blank
  | [] => rfl
  | none :: rest => preorderAll_blankIn rest
  | some s :: rest => by
    rw [blankIn, preorderAll, preorderAll, preorder_blank s, preorderAll_blankIn rest,
      List.map_append]
end

mutual
theorem mapNames_blank (f : String → Option String) : ∀ s : Subtree, (s.mapNames f).blank = s.blank
  | .node id kind value slots => by
    have hvalue : (renamed f value).map Value.blank = value.map Value.blank := by
      cases value with
      | none => rfl
      | some v =>
          cases v with
          | name text => cases h : f text <;> simp [renamed, Value.mapName?, h, Value.blank]
          | columns | rename | derived => rfl
    rw [mapNames, blank, blank, hvalue, mapNamesIn_blankIn f slots]
theorem mapNamesIn_blankIn (f : String → Option String) :
    ∀ slots, blankIn (mapNamesIn f slots) = blankIn slots
  | [] => rfl
  | none :: rest => congrArg (none :: ·) (mapNamesIn_blankIn f rest)
  | some s :: rest => by
    rw [mapNamesIn, blankIn, blankIn, mapNames_blank f s, mapNamesIn_blankIn f rest]
end

/-- A crossing that rewords a subtree puts words in slot 0 for those that are there. -/
theorem Reworded.exists_setChild {s s' : Subtree} (h : s.Reworded s') :
    s' = s ∨ ∃ c c' : Subtree, s.child 0 = some c ∧ c'.blank = c.blank ∧
      s' = s.setChild 0 (some c') := by
  cases h with
  | same => exact .inl rfl
  | @parameter old value hold hform =>
      obtain ⟨leaf, hleaf, hvalue⟩ := Option.bind_eq_some_iff.mp hold
      refine .inr ⟨leaf, leaf.setValue value, hleaf, ?_, by rw [setParameter, hleaf]⟩
      obtain ⟨id, kind, _, slots⟩ := leaf
      cases hvalue
      simp only [setValue, Subtree.id, Subtree.kind, Subtree.slots, blank, Option.map_some,
        Value.blank_eq_of_form hform]
  | @predicate top f htop => exact .inr ⟨top, top.mapNames f, htop, mapNames_blank f top, rfl⟩

/-- A crossing that rewords a subtree changes nothing else about it. -/
theorem Reworded.blank_eq {s s' : Subtree} (h : s.Reworded s') : s'.blank = s.blank := by
  rcases h.exists_setChild with rfl | ⟨c, c', hc, hblank, rfl⟩
  · rfl
  · have hchild : s.blank.child 0 = some c.blank := by rw [blank_child, hc]; rfl
    rw [setChild_blank, Option.map_some, hblank, setChild_child hchild]

end Subtree

namespace Frame

/-- A frame with its values blanked. -/
def blank (f : Frame) : Frame :=
  ⟨f.id, f.kind, f.value.map Value.blank, Subtree.blankIn f.before, Subtree.blankIn f.after⟩

theorem fill_blank (f : Frame) (hole : Option Subtree) :
    (f.fill hole).blank = f.blank.fill (hole.map Subtree.blank) := by
  simp [fill, Subtree.blank, blank, Subtree.blankIn_eq_map]

theorem fill_blank_congr (f : Frame) {s s' : Subtree} (h : s'.blank = s.blank) :
    (f.fill (some s')).blank = (f.fill (some s)).blank := by
  rw [fill_blank, fill_blank, Option.map_some, h, Option.map_some]

end Frame

/-- A whole is the same but for values if what stands at the foot of the path is. -/
theorem Path.fill_blank_congr (path : Path) {s s' : Subtree} (h : s'.blank = s.blank) :
    (path.fill s').blank = (path.fill s).blank := by
  induction path generalizing s s' with
  | nil => exact h
  | cons f above ih => exact ih (f.fill_blank_congr h)

end FlatSelect
