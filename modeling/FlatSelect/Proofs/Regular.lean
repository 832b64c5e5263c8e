import FlatSelect.Proofs.Bare
import FlatSelect.Proofs.Descent

/-!
# The shape of queries

A tree that is built from an expression has the shape that the expression was checked for: every
node has as many children as its kind owns, no slot is vacant, constants and no others hold values,
and a node that keeps a parameter has a constant of the right form in its slot 0. Such a subtree is
regular. What a parameter may be is a contract, so that the shape can be spoken of where values have
been overwritten at will.

A frame of a regular whole is regular on its own, and if it does not hold a constant it takes
anything regular (`Subtree.Regular.replace`). So whatever puts regular subtrees in the place of
operators keeps a whole regular, lifting among it (`Subtree.Regular.of_lift`).
-/

namespace FlatSelect

/-- What may stand in the parameter of a node. This goes by the form of a value, and a value that a
check admits may always stand there. -/
structure Contract where
  fits : Kind → Value → Bool
  fits_congr {kind : Kind} {v w : Value} (h : v.form = w.form) : fits kind v = fits kind w
  fits_of_admits {kind : Kind} {v : Value} (h : kind.admits v = true) : fits kind v = true

namespace Contract

/-- A parameter has the form that its node reads. -/
def strict : Contract where
  fits := Kind.admits
  fits_congr {kind v w} h := by
    cases v <;> cases w <;> first
      | (cases kind <;> rfl)
      | exact absurd h (by simp [Value.form])
  fits_of_admits h := h

/-- A parameter is any value. -/
def lax : Contract where
  fits _ _ := true
  fits_congr _ := rfl
  fits_of_admits _ := rfl

end Contract

theorem Kind.ne_constant_of_hasOperand {kind : Kind} (h : kind.hasOperand = true) :
    kind ≠ .constant := by
  rintro rfl
  cases h

/-- All operators but conditions have a constant for their parameter. -/
theorem Kind.hasParameter_of_hasOperand {kind : Kind} (h : kind.hasOperand = true)
    (hne : kind ≠ .condition) : kind.hasParameter = true := by
  cases kind <;> first | rfl | exact absurd h (by decide) | exact absurd rfl hne

theorem Kind.arity_of_hasOperand {kind : Kind} (h : kind.hasOperand = true) : kind.arity = 2 := by
  cases kind <;> first | rfl | exact absurd h (by decide)

namespace Subtree

/-- A node has the children and the value of its kind, and the parameter that it reads. -/
structure Proper (c : Contract) (s : Subtree) : Prop where
  value_iff : s.value.isSome = true ↔ s.kind = .constant
  length_eq : s.slots.length = s.kind.arity
  parameter : s.kind.hasParameter = true → ∃ v, s.slotValue 0 = some v ∧ c.fits s.kind v = true

mutual
/-- All nodes are proper, and no slot is vacant. -/
def Regular (c : Contract) : Subtree → Prop
  | .node id kind value slots => Proper c (.node id kind value slots) ∧ RegularAll c slots
/-- Regular subtrees stand in all of several slots. -/
def RegularAll (c : Contract) : List (Option Subtree) → Prop
  | [] => True
  | none :: _ => False
  | some s :: rest => s.Regular c ∧ RegularAll c rest
end

variable {c : Contract} {s s' : Subtree} {slots : List (Option Subtree)}

theorem regular_iff : s.Regular c ↔ s.Proper c ∧ RegularAll c s.slots := by
  cases s
  rfl

theorem Regular.proper (h : s.Regular c) : s.Proper c :=
  (regular_iff.mp h).1

theorem regularAll_append {left right : List (Option Subtree)} :
    RegularAll c (left ++ right) ↔ RegularAll c left ∧ RegularAll c right := by
  induction left with
  | nil => simp [RegularAll]
  | cons child rest ih => cases child <;> simp [RegularAll, ih, and_assoc]

theorem RegularAll.of_mem (h : RegularAll c slots) (hs : some s ∈ slots) : s.Regular c := by
  obtain ⟨left, right, rfl⟩ := List.append_of_mem hs
  exact (regularAll_append.mp h).2.1

theorem RegularAll.none_notMem (h : RegularAll c slots) : none ∉ slots := by
  intro hnone
  obtain ⟨left, right, rfl⟩ := List.append_of_mem hnone
  exact (regularAll_append.mp h).2

/-- A constant is a leaf. -/
theorem Regular.slots_of_constant (h : s.Regular c) (hkind : s.kind = .constant) :
    s.slots = [] := by
  have hlength := h.proper.length_eq
  rw [hkind] at hlength
  exact List.length_eq_zero_iff.mp hlength

theorem Regular.value_of_ne_constant (h : s.Regular c) (hkind : s.kind ≠ .constant) :
    s.value = none := by
  rw [← Option.not_isSome_iff_eq_none, h.proper.value_iff]
  exact hkind

/-- A node with two children. Where the first is a parameter it is a constant. -/
theorem Regular.exists_slots (h : s.Regular c) (harity : s.kind.arity = 2) :
    ∃ first second, s.slots = [some first, some second] ∧ first.Regular c ∧ second.Regular c ∧
      (s.kind.hasParameter = true → first.kind = .constant) := by
  obtain ⟨id, kind, value, slots⟩ := s
  obtain ⟨⟨_, hlength, hparameter⟩, hall⟩ := h
  match slots, hlength.trans harity, hall with
  | [some first, some second], _, hall =>
      refine ⟨first, second, rfl, hall.1, hall.2.1, ?_⟩
      intro hkeeps
      obtain ⟨v, hv, _⟩ := hparameter hkeeps
      exact hall.1.proper.value_iff.mp (Option.isSome_iff_exists.mpr ⟨v, hv⟩)

/-- A node with one child. -/
theorem Regular.exists_slot (h : s.Regular c) (harity : s.kind.arity = 1) :
    ∃ child, s.slots = [some child] ∧ child.Regular c := by
  obtain ⟨id, kind, value, slots⟩ := s
  obtain ⟨⟨_, hlength, _⟩, hall⟩ := h
  match slots, hlength.trans harity, hall with
  | [some child], _, hall => exact ⟨child, rfl, hall.1⟩

mutual
theorem Regular.full : ∀ {s : Subtree}, s.Regular c → s.full = true
  | .node _ _ _ _, h => RegularAll.full h.2
theorem RegularAll.full : ∀ {slots : List (Option Subtree)}, RegularAll c slots →
    fullAll slots = true
  | [], _ => rfl
  | none :: _, h => h.elim
  | some s :: rest, h => by
    rw [fullAll, Regular.full h.1, RegularAll.full h.2]
    rfl
end

/-! ### What the shape does not depend on -/

theorem proper_congr (hkind : s'.kind = s.kind)
    (hvalue : s'.value.map Value.form = s.value.map Value.form)
    (hlength : s'.slots.length = s.slots.length)
    (hparameter : (s'.slotValue 0).map Value.form = (s.slotValue 0).map Value.form) :
    s'.Proper c ↔ s.Proper c := by
  have himp : ∀ {s s' : Subtree}, s'.kind = s.kind →
      s'.value.map Value.form = s.value.map Value.form → s'.slots.length = s.slots.length →
      (s'.slotValue 0).map Value.form = (s.slotValue 0).map Value.form →
      s.Proper c → s'.Proper c := by
    intro s s' hkind hvalue hlength hparameter h
    refine ⟨?_, by rw [hlength, hkind, h.length_eq], ?_⟩
    · rw [hkind, ← h.value_iff, ← Option.isSome_map, hvalue, Option.isSome_map]
    · intro hkeeps
      rw [hkind] at hkeeps ⊢
      obtain ⟨v, hv, hfits⟩ := h.parameter hkeeps
      rw [hv] at hparameter
      obtain ⟨w, hw, hform⟩ := Option.map_eq_some_iff.mp hparameter
      exact ⟨w, hw, (c.fits_congr hform).trans hfits⟩
  exact ⟨himp hkind.symm hvalue.symm hlength.symm hparameter.symm,
    himp hkind hvalue hlength hparameter⟩

mutual
theorem regular_blank : ∀ s : Subtree, s.blank.Regular c ↔ s.Regular c
  | .node id kind value slots => by
    rw [regular_iff, regular_iff, blank_slots, ← blankIn_eq_map]
    refine and_congr (proper_congr (blank_kind _) ?_ ?_ ?_) (regularAll_blankIn slots)
    · rw [blank_value, Value.map_form_map_blank]
    · rw [blank_slots, List.length_map]
    · rw [blank_slotValue, Value.map_form_map_blank]
theorem regularAll_blankIn : ∀ slots, RegularAll c (blankIn slots) ↔ RegularAll c slots
  | [] => Iff.rfl
  | none :: _ => Iff.rfl
  | some s :: rest => and_congr (regular_blank s) (regularAll_blankIn rest)
end

mutual
theorem regular_bare : ∀ s : Subtree, s.bare.Regular c ↔ s.Regular c
  | .node id kind value slots => by
    rw [regular_iff, regular_iff, bare_slots, ← bareIn_eq_map]
    refine and_congr (proper_congr (bare_kind _) ?_ ?_ ?_) (regularAll_bareIn slots)
    · rw [bare_value]
    · rw [bare_slots, List.length_map]
    · rw [bare_slotValue]
theorem regularAll_bareIn : ∀ slots, RegularAll c (bareIn slots) ↔ RegularAll c slots
  | [] => Iff.rfl
  | none :: _ => Iff.rfl
  | some s :: rest => and_congr (regular_bare s) (regularAll_bareIn rest)
end

theorem regular_toExpr (h : s.full = true) : s.toExpr.bare.Regular c ↔ s.Regular c := by
  rw [← bare_eq_of_full h, regular_bare]

end Subtree

/-! ### Frames of regular wholes -/

namespace Frame

variable {c : Contract} {f : Frame} {s : Subtree}

/-- A node is regular but for what stands in its open slot. -/
structure Regular (c : Contract) (f : Frame) : Prop where
  value_none : f.value = none
  length_eq : (f.fill none).slots.length = f.kind.arity
  before : Subtree.RegularAll c f.before
  after : Subtree.RegularAll c f.after
  parameter : f.kind.hasParameter = true → f.slot ≠ 0 →
    ∃ v, (f.fill none).slotValue 0 = some v ∧ c.fits f.kind v = true

/-- If the open slot is that of a parameter, then what stands there is one. -/
def Takes (c : Contract) (f : Frame) (s : Subtree) : Prop :=
  f.kind.hasParameter = true → f.slot = 0 → ∃ v, s.value = some v ∧ c.fits f.kind v = true

theorem Takes.of_slot (h : f.slot ≠ 0) : f.Takes c s :=
  fun _ hslot => absurd hslot h

theorem Takes.of_hasParameter (h : f.kind.hasParameter = false) : f.Takes c s :=
  fun hkeeps => absurd (h.symm.trans hkeeps) (by decide)

/-- A slot that takes something other than a constant takes anything. -/
theorem Takes.of_value_none {s' : Subtree} (h : f.Takes c s) (hvalue : s.value = none) :
    f.Takes c s' := by
  intro hkeeps hslot
  obtain ⟨v, hv, _⟩ := h hkeeps hslot
  rw [hvalue] at hv
  cases hv

theorem length_slots_fill (f : Frame) (hole : Option Subtree) :
    (f.fill hole).slots.length = (f.fill none).slots.length := by
  simp

theorem child_fill_of_ne {slot : Nat} (hole : Option Subtree) (h : f.slot ≠ slot) :
    (f.fill hole).child slot = (f.fill none).child slot := by
  have hget : (f.fill hole).slots[slot]? = (f.fill none).slots[slot]? := by
    rw [fill_slots, fill_slots, List.getElem?_append, List.getElem?_append]
    split
    · rfl
    · have hpos : slot - f.before.length ≠ 0 := by
        rw [Frame.slot] at h
        omega
      obtain ⟨n, hn⟩ := Nat.exists_eq_succ_of_ne_zero hpos
      rw [hn]
      rfl
  rw [Subtree.child, Subtree.child, hget]

theorem slotValue_fill_of_ne {slot : Nat} (hole : Option Subtree) (h : f.slot ≠ slot) :
    (f.fill hole).slotValue slot = (f.fill none).slotValue slot := by
  rw [Subtree.slotValue, Subtree.slotValue, child_fill_of_ne hole h]

theorem slotValue_fill (f : Frame) (s : Subtree) :
    (f.fill (some s)).slotValue f.slot = s.value := by
  rw [Subtree.slotValue, child_fill]
  rfl

theorem kind_ne_constant (h : (f.fill none).slots.length = f.kind.arity) :
    f.kind ≠ .constant := by
  intro hkind
  rw [hkind] at h
  simp [Kind.arity] at h

/-- A whole is regular if its frame and what fills it are. -/
theorem regular_fill :
    (f.fill (some s)).Regular c ↔ f.Regular c ∧ f.Takes c s ∧ s.Regular c := by
  rw [Subtree.regular_iff, fill_slots, Subtree.regularAll_append]
  constructor
  · rintro ⟨hproper, hbefore, hs, hafter⟩
    have hlength : (f.fill none).slots.length = f.kind.arity :=
      (f.length_slots_fill (some s)).symm.trans hproper.length_eq
    refine ⟨⟨?_, hlength, hbefore, hafter, ?_⟩, ?_, hs⟩
    · rw [← Option.not_isSome_iff_eq_none]
      exact fun hvalue => kind_ne_constant hlength (hproper.value_iff.mp hvalue)
    · intro hkeeps hslot
      rw [← slotValue_fill_of_ne (some s) hslot]
      exact hproper.parameter hkeeps
    · intro hkeeps hslot
      rw [← f.slotValue_fill s, hslot]
      exact hproper.parameter hkeeps
  · rintro ⟨hf, htakes, hs⟩
    refine ⟨⟨?_, (f.length_slots_fill (some s)).trans hf.length_eq, ?_⟩, hf.before, hs, hf.after⟩
    · rw [fill_value, hf.value_none]
      exact iff_of_false (by decide) (kind_ne_constant hf.length_eq)
    · intro hkeeps
      by_cases hslot : f.slot = 0
      · rw [← hslot, f.slotValue_fill]
        exact htakes hkeeps hslot
      · rw [slotValue_fill_of_ne (some s) hslot]
        exact hf.parameter hkeeps hslot

end Frame

namespace Subtree

variable {c : Contract} {s s' : Subtree} {path : Path}

/-- What stands in a regular whole is regular. -/
theorem Regular.foot (h : (path.fill s).Regular c) : s.Regular c := by
  induction path generalizing s with
  | nil => exact h
  | cons f above ih => exact (Frame.regular_fill.mp (ih h)).2.2

/-- Anything regular may stand in the place of an operator. -/
theorem Regular.replace (h : (path.fill s).Regular c) (hkind : s.kind ≠ .constant)
    (hs' : s'.Regular c) : (path.fill s').Regular c := by
  induction path generalizing s s' with
  | nil => exact hs'
  | cons f above ih =>
      have hparent : (f.fill (some s)).Regular c := @Regular.foot c _ above h
      obtain ⟨hf, htakes, hs⟩ := Frame.regular_fill.mp hparent
      have hslot : f.Takes c s' := htakes.of_value_none (hs.value_of_ne_constant hkind)
      exact ih h (Frame.kind_ne_constant hf.length_eq) (Frame.regular_fill.mpr ⟨hf, hslot, hs'⟩)

/-- What an operator stands on may take its place. -/
theorem Regular.spliceOut {d f : Frame} (hkind : d.kind ≠ .constant)
    (h : (f.fill (some (d.fill (some s)))).Regular c) : (f.fill (some s)).Regular c := by
  obtain ⟨hf, htakes, hnode⟩ := Frame.regular_fill.mp h
  exact Frame.regular_fill.mpr
    ⟨hf, htakes.of_value_none (hnode.value_of_ne_constant hkind), (Frame.regular_fill.mp hnode).2.2⟩

/-- An operator and the frame above it may change places. -/
theorem Regular.swap {d f : Frame} {above : Path} (hd : d.slot = 1)
    (hkind : d.kind ≠ .constant)
    (h : (above.fill (f.fill (some (d.fill (some s))))).Regular c) :
    (above.fill (d.fill (some (f.fill (some s))))).Regular c := by
  have hparent : (f.fill (some (d.fill (some s)))).Regular c := h.foot
  obtain ⟨hf, _, hnode⟩ := Frame.regular_fill.mp hparent
  exact h.replace (Frame.kind_ne_constant hf.length_eq) (Frame.regular_fill.mpr
    ⟨(Frame.regular_fill.mp hnode).1, .of_slot (by omega), hparent.spliceOut hkind⟩)

theorem regular_congr_blank (h : s'.blank = s.blank) : s'.Regular c ↔ s.Regular c := by
  rw [← regular_blank, h, regular_blank]

/-- Two predicates may stand in the place of one. -/
theorem Regular.conjoin {parent outer inner : Subtree} (fresh : NodeId) (h : parent.Regular c)
    (hkind : parent.kind = .condition) (houter : parent.child 0 = some outer)
    (hinner : inner.Regular c) :
    (parent.setChild 0 (some (.node fresh .and none [some outer, some inner]))).Regular c := by
  obtain ⟨p, rfl, hp⟩ := exists_frame houter
  obtain ⟨hframe, _, houter⟩ := Frame.regular_fill.mp h
  have hkeeps : p.kind.hasParameter = false := by
    rw [show p.kind = .condition from hkind]
    rfl
  have hboth : (Subtree.node fresh .and none [some outer, some inner]).Regular c := by
    refine ⟨⟨?_, rfl, ?_⟩, houter, hinner, trivial⟩
    · simp [Subtree.value, Subtree.kind]
    · simp [Subtree.kind, Kind.hasParameter]
  rw [← hp, setChild_fill]
  exact Frame.regular_fill.mpr ⟨hframe, .of_hasParameter hkeeps, hboth⟩

variable {g : Grammar} {fresh : NodeId} {node below whole : Subtree} {steps : Nat}
  {outcome : Lift.Outcome}

/-- What a parent becomes that absorbs an operator is regular. -/
theorem Regular.of_absorbed {d f : Frame} {rule : Transfer} {parent' : Subtree}
    (hkind : d.kind ≠ .constant) (h : (f.fill (some (d.fill (some below)))).Regular c)
    (hrule : Transfer.between? d.kind f.kind = some rule)
    (hcomes : rule.Comes fresh (d.fill none) (f.fill (some below)) (.absorbed parent')) :
    parent'.Regular c := by
  have hparent := h.spliceOut hkind
  obtain ⟨hd, _, _⟩ := Frame.regular_fill.mp (Frame.regular_fill.mp h).2.2
  cases hcomes with
  | absorbed hreworded _ => exact (regular_congr_blank hreworded.blank_eq).mpr hparent
  | @conjoined outer inner houter hinner =>
      obtain ⟨_, hcondition⟩ := Transfer.condition_of_conjoinConditions hrule
      have hmem : some inner ∈ d.before ++ none :: d.after :=
        List.mem_of_getElem? (Option.join_eq_some_iff.mp hinner)
      refine hparent.conjoin fresh hcondition houter ?_
      rcases List.mem_append.mp hmem with hmem | hmem
      · exact hd.before.of_mem hmem
      · exact hd.after.of_mem ((List.mem_cons.mp hmem).resolve_left (by simp))

/-- A node that rises past a parent leaves the whole regular. -/
theorem Regular.of_rises {d f : Frame} {above : Path} {node' parent' : Subtree} (hd : d.slot = 1)
    (hkind : d.kind ≠ .constant) (h : (hung (d.fill none) below (f :: above)).Regular c)
    (hnode : (d.fill none).Reworded node') (hparent : (f.fill (some below)).Reworded parent') :
    (hung node' parent' above).Regular c := by
  rw [hung_fill_none hd, Path.fill_cons] at h
  rw [regular_congr_blank (blank_hung_rises hd hnode hparent above)]
  exact h.swap hd hkind

/-- What rises keeps its operand slot open. -/
theorem Reworded.exists_frame {d : Frame} (hd : d.slot = 1) (h : (d.fill none).Reworded s') :
    ∃ d' : Frame, d'.fill none = s' ∧ d'.slot = 1 ∧ d'.kind = d.kind := by
  obtain ⟨d', rfl, hd'⟩ := exists_frame_of_slot
    ((h.slot_eq (by decide)).trans (open_fill_none hd))
  exact ⟨d', rfl, hd', h.kind_eq⟩

/-- An operator that is carried up a regular whole leaves it regular. -/
theorem Rises.regular {d : Frame} (hd : d.slot = 1) (hkind : d.kind.hasOperand = true)
    (h : Rises g fresh node below steps path outcome whole) (hnode : node = d.fill none)
    (hreg : (hung node below path).Regular c) : whole.Regular c := by
  induction h generalizing d with
  | lands => exact hreg
  | @crosses node below node' parent' whole steps f above rule outcome _ hrule hcross _ ih =>
      subst hnode
      cases Transfer.comes_of_cross hcross with
      | rises hnode hparent _ _ =>
          obtain ⟨d', rfl, hd', hkind'⟩ := hnode.exists_frame hd
          exact ih hd' (hkind' ▸ hkind) rfl
            (hreg.of_rises hd (Kind.ne_constant_of_hasOperand hkind) hnode hparent)
  | @absorbed node below parent' steps f above rule _ hrule hcross =>
      subst hnode
      rw [hung_fill_none hd, Path.fill_cons] at hreg
      have hparent : (f.fill (some (d.fill (some below)))).Regular c := hreg.foot
      obtain ⟨hf, _, _⟩ := Frame.regular_fill.mp hparent
      exact hreg.replace (Frame.kind_ne_constant hf.length_eq)
        (hparent.of_absorbed (Kind.ne_constant_of_hasOperand hkind) hrule
          (Transfer.comes_of_cross hcross))

/-- Lifting keeps a whole regular. -/
theorem Regular.of_lift (h : (path.fill node).Regular c)
    (hlift : node.lift g fresh path = .ok (outcome, whole)) : whole.Regular c := by
  cases path with
  | nil => cases hlift
  | cons f above =>
      cases hallows : g.allows f.kind f.slot node.kind with
      | true =>
          rw [lift, hallows, if_pos rfl] at hlift
          cases hlift
          exact h
      | false =>
          obtain ⟨d, operand, rfl, hd, hkind, hrises⟩ := exists_rises_of_lift hallows hlift
          rw [← hung_fill_none hd] at h
          exact hrises.regular hd hkind rfl h

end Subtree

/-! ### Checked expressions -/

namespace Expr

theorem of_seq_eq_ok {r r' : Except Malformation Unit} (h : (do r; r') = .ok ()) :
    r = .ok () ∧ r' = .ok () := by
  cases r with
  | error => cases h
  | ok => exact ⟨rfl, h⟩

theorem slotValue_bare (kind : Kind) (value : Option Value) (children : List Expr) (slot : Nat) :
    (Expr.node kind value children).bare.slotValue slot = children[slot]?.bind Expr.value := by
  change (bareAll children)[slot]?.join.bind Subtree.value = _
  induction children generalizing slot with
  | nil => rfl
  | cons e es ih =>
      cases slot with
      | zero =>
          cases e
          rfl
      | succ slot => exact ih slot

theorem length_bareAll (es : List Expr) : (bareAll es).length = es.length := by
  induction es with
  | nil => rfl
  | cons e es ih => exact congrArg Nat.succ ih

theorem checkNode_eq_ok {kind : Kind} {value : Option Value} {count : Nat} :
    checkNode kind value count = .ok () ↔
      (value.isSome = true ↔ kind = .constant) ∧ count = kind.arity := by
  cases value <;> cases kind <;> simp [checkNode]
  rfl

theorem exists_of_checkParameter {kind : Kind} {children : List Expr}
    (h : checkParameter kind children = .ok ()) (hkeeps : kind.hasParameter = true) :
    ∃ v, children[0]?.bind value = some v ∧ kind.admits v = true := by
  rw [checkParameter, if_pos hkeeps] at h
  split at h
  · cases h
  case h_2 v hv =>
    split at h
    case isTrue hadmits => exact ⟨v, hv, hadmits⟩
    case isFalse => cases h

mutual
/-- An expression that makes sense is regular. -/
theorem regular_of_check {c : Contract} : ∀ {e : Expr}, e.check = .ok () → e.bare.Regular c
  | .node kind value children, h => by
    obtain ⟨hnode, h⟩ := of_seq_eq_ok h
    obtain ⟨hall, h⟩ := of_seq_eq_ok h
    obtain ⟨hparameter, _⟩ := of_seq_eq_ok h
    obtain ⟨hvalue, hlength⟩ := checkNode_eq_ok.mp hnode
    refine ⟨⟨hvalue, (length_bareAll children).trans hlength, ?_⟩, regularAll_of_checkAll hall⟩
    intro hkeeps
    obtain ⟨v, hv, hadmits⟩ := exists_of_checkParameter hparameter hkeeps
    exact ⟨v, (slotValue_bare kind value children 0).trans hv, c.fits_of_admits hadmits⟩
theorem regularAll_of_checkAll {c : Contract} :
    ∀ {es : List Expr}, checkAll es = .ok () → Subtree.RegularAll c (bareAll es)
  | [], _ => trivial
  | e :: es, h => by
    obtain ⟨he, hes⟩ := of_seq_eq_ok h
    exact ⟨regular_of_check he, regularAll_of_checkAll hes⟩
end

end Expr

end FlatSelect
