import FlatSelect.Proofs.Forms
import FlatSelect.Lift

/-!
# Lifting, said of subtrees

`Subtree.lift` takes a node at the foot of a path and gives the whole as it is when the node has
been lifted. It carries the node up frame by frame: what the node has crossed so far is one subtree,
which becomes its operand where it lands.

`Holds.lift` says that lifting a node of a tree is `Subtree.lift` on the subtree that the tree
represents, errors included, and that the dead nodes stay as they are. A node that is absorbed joins
them with what is left below it.
-/

namespace FlatSelect

namespace Subtree

/-- Carries `node`, whose operand slot is vacant, up a path. `below` is what hangs at the foot, and
`steps` is how many frames have been crossed. -/
def rise (g : Grammar) (fresh : NodeId) (node below : Subtree) (steps : Nat) :
    Path → Except Error (Lift.Outcome × Subtree)
  | [] => .error (.nonCanonicalizable (.pastRoot node.kind))
  | f :: above =>
    if g.allows f.kind f.slot node.kind then
      .ok (.relocated f.place steps, Path.fill (f :: above) (node.setChild 1 (some below)))
    else
      match Transfer.between? node.kind f.kind with
      | none => .error (.nonCanonicalizable (.noTransfer node.kind f.kind))
      | some rule =>
        match rule.cross fresh node (f.fill (some below)) f.slot with
        | .error cause => .error cause
        | .ok (.rises node parent) => rise g fresh node parent (steps + 1) above
        | .ok (.absorbed parent) => .ok (.absorbed (steps + 1), Path.fill above parent)

/-- Lifts the node at the foot of a path. -/
def lift (g : Grammar) (fresh : NodeId) (node : Subtree) :
    Path → Except Error (Lift.Outcome × Subtree)
  | [] => .error (.nonCanonicalizable (.isRoot node.kind))
  | f :: above =>
    if g.allows f.kind f.slot node.kind then
      .ok (.alreadyLegal, Path.fill (f :: above) node)
    else if node.kind.hasOperand then
      match node.child 1 with
      | none => .error (.malformedTree (.noOperand node.kind))
      | some operand => rise g fresh (node.setChild 1 none) operand 0 (f :: above)
    else
      .error (.nonCanonicalizable (.immovable node.kind f.kind))

section Steps

variable {g : Grammar} {fresh : NodeId} {node below : Subtree} {steps : Nat} {f : Frame}
  {above : Path} {rule : Transfer}

theorem rise_lands (hallows : g.allows f.kind f.slot node.kind = true) :
    node.rise g fresh below steps (f :: above) =
      .ok (.relocated f.place steps, Path.fill (f :: above) (node.setChild 1 (some below))) := by
  rw [rise, hallows, if_pos rfl]

theorem rise_rises (rule : Transfer) (node' parent' : Subtree)
    (hallows : g.allows f.kind f.slot node.kind = false)
    (hrule : Transfer.between? node.kind f.kind = some rule)
    (hcross : rule.cross fresh node (f.fill (some below)) f.slot = .ok (.rises node' parent')) :
    node.rise g fresh below steps (f :: above) =
      node'.rise g fresh parent' (steps + 1) above := by
  rw [rise, hallows, if_neg (by decide), hrule]
  simp only [hcross]

theorem rise_absorbed {parent' : Subtree} (hallows : g.allows f.kind f.slot node.kind = false)
    (hrule : Transfer.between? node.kind f.kind = some rule)
    (hcross : rule.cross fresh node (f.fill (some below)) f.slot = .ok (.absorbed parent')) :
    node.rise g fresh below steps (f :: above) =
      .ok (.absorbed (steps + 1), Path.fill above parent') := by
  rw [rise, hallows, if_neg (by decide), hrule]
  simp only [hcross]

theorem rise_fails {cause : Error} (hallows : g.allows f.kind f.slot node.kind = false)
    (hrule : Transfer.between? node.kind f.kind = some rule)
    (hcross : rule.cross fresh node (f.fill (some below)) f.slot = .error cause) :
    node.rise g fresh below steps (f :: above) = .error cause := by
  rw [rise, hallows, if_neg (by decide), hrule]
  simp only [hcross]

theorem rise_no_rule (hallows : g.allows f.kind f.slot node.kind = false)
    (hrule : Transfer.between? node.kind f.kind = none) :
    node.rise g fresh below steps (f :: above) =
      .error (.nonCanonicalizable (.noTransfer node.kind f.kind)) := by
  rw [rise, hallows, if_neg (by decide), hrule]

end Steps

/-- A node has been carried up a path. -/
inductive Rises (g : Grammar) (fresh : NodeId) :
    Subtree → Subtree → Nat → Path → Lift.Outcome → Subtree → Prop
  | lands {node below : Subtree} {steps : Nat} {f : Frame} {above : Path}
    (hallows : g.allows f.kind f.slot node.kind = true) :
    Rises g fresh node below steps (f :: above) (.relocated f.place steps)
      (Path.fill (f :: above) (node.setChild 1 (some below)))
  | crosses {node below node' parent' whole : Subtree} {steps : Nat} {f : Frame} {above : Path}
    {rule : Transfer} {outcome : Lift.Outcome} (hallows : g.allows f.kind f.slot node.kind = false)
    (hrule : Transfer.between? node.kind f.kind = some rule)
    (hcross : rule.cross fresh node (f.fill (some below)) f.slot = .ok (.rises node' parent'))
    (hrest : Rises g fresh node' parent' (steps + 1) above outcome whole) :
    Rises g fresh node below steps (f :: above) outcome whole
  | absorbed {node below parent' : Subtree} {steps : Nat} {f : Frame} {above : Path}
    {rule : Transfer} (hallows : g.allows f.kind f.slot node.kind = false)
    (hrule : Transfer.between? node.kind f.kind = some rule)
    (hcross : rule.cross fresh node (f.fill (some below)) f.slot = .ok (.absorbed parent')) :
    Rises g fresh node below steps (f :: above) (.absorbed (steps + 1)) (Path.fill above parent')

theorem rises_of_rise {g : Grammar} {fresh : NodeId} {node below whole : Subtree} {steps : Nat}
    {path : Path} {outcome : Lift.Outcome}
    (h : node.rise g fresh below steps path = .ok (outcome, whole)) :
    Rises g fresh node below steps path outcome whole := by
  induction path generalizing node below steps with
  | nil => exact absurd h (by simp [rise])
  | cons f above ih =>
      rw [rise] at h
      cases hallows : g.allows f.kind f.slot node.kind with
      | true =>
          rw [hallows, if_pos rfl] at h
          cases h
          exact .lands hallows
      | false =>
          rw [hallows, if_neg (by decide)] at h
          cases hrule : Transfer.between? node.kind f.kind with
          | none => simp [hrule] at h
          | some rule =>
              cases hcross : rule.cross fresh node (f.fill (some below)) f.slot with
              | error cause => simp [hrule, hcross] at h
              | ok crossed =>
                  simp only [hrule, hcross] at h
                  cases crossed with
                  | rises node' parent' => exact .crosses hallows hrule hcross (ih h)
                  | absorbed parent' =>
                      cases h
                      exact .absorbed hallows hrule hcross

theorem rise_ne_budgetSpent {g : Grammar} {fresh : NodeId} {node below : Subtree} {steps : Nat}
    {path : Path} {cause : Error} (h : node.rise g fresh below steps path = .error cause)
    (lifts : Nat) : cause ≠ .nonCanonicalizable (.budgetSpent lifts) := by
  induction path generalizing node below steps with
  | nil => cases h; simp
  | cons f above ih =>
      rw [rise] at h
      split at h
      · cases h
      · split at h
        case h_1 => cases h; simp
        case h_2 rule hrule =>
          cases hcross : rule.cross fresh node (f.fill (some below)) f.slot with
          | error cause' =>
              rw [hcross] at h
              cases h
              cases Transfer.fails_of_cross hcross <;> simp
          | ok crossed =>
              rw [hcross] at h
              cases crossed with
              | rises => exact ih h
              | absorbed => cases h

/-- No lift complains of the budget. -/
theorem lift_ne_budgetSpent {g : Grammar} {fresh : NodeId} {node : Subtree} {path : Path}
    {cause : Error} (h : node.lift g fresh path = .error cause) (lifts : Nat) :
    cause ≠ .nonCanonicalizable (.budgetSpent lifts) := by
  cases path with
  | nil => cases h; simp
  | cons f above =>
      rw [lift] at h
      split at h
      · cases h
      · split at h
        · split at h
          · cases h; simp
          · exact rise_ne_budgetSpent h lifts
        · cases h; simp

end Subtree

namespace Lift

/-- One place on the way up. -/
theorem rise_cons (g : Grammar) (node : NodeId) (steps : Nat) (place : Place) (above : List Place)
    (t : Tree) :
    rise g node steps (place :: above) t =
      if g.allows (t.kind place.parent) place.slot (t.kind node) then
        match land node place t with
        | .ok () t' => .ok (.relocated place steps) t'
        | .error cause t' => .error cause t'
      else
        match Transfer.between? (t.kind node) (t.kind place.parent) with
        | none =>
          .error (.nonCanonicalizable (.noTransfer (t.kind node) (t.kind place.parent))) t
        | some rule =>
          match rule.apply ⟨node, place⟩ t with
          | .ok .rises t' => rise g node (steps + 1) above t'
          | .ok .absorbed t' => .ok (.absorbed (steps + 1)) (t'.removeSubtree node)
          | .error cause t' => .error cause t' := by
  rw [rise, Edit.get_bind, Edit.get_bind]
  split
  · rw [Edit.bind_apply]
    cases land node place t <;> rfl
  · cases Transfer.between? (t.kind node) (t.kind place.parent) with
    | none => rfl
    | some rule =>
        dsimp only
        rw [Edit.bind_apply]
        cases rule.apply ⟨node, place⟩ t with
        | error => rfl
        | ok verdict => cases verdict <;> rfl

theorem run_eq (g : Grammar) (node : NodeId) (t : Tree) :
    run g node t =
      match t.place node with
      | none => .error (.nonCanonicalizable (.isRoot (t.kind node))) t
      | some place =>
        if g.allows (t.kind place.parent) place.slot (t.kind node) then .ok .alreadyLegal t
        else if (t.kind node).hasOperand then
          match spliceOut node place t with
          | .ok () t' => rise g node 0 (place :: t'.ancestors place.parent) t'
          | .error cause t' => .error cause t'
        else .error (.nonCanonicalizable (.immovable (t.kind node) (t.kind place.parent))) t := by
  rw [run, Edit.get_bind]
  cases t.place node with
  | none => rfl
  | some place =>
      dsimp only
      split
      · rfl
      · split
        · rw [Edit.bind_apply]
          cases spliceOut node place t <;> rfl
        · rfl

end Lift

/-- The records of what is dead after a node was lifted, and was not before: nothing, or what is
left of a node that was absorbed. -/
inductive Subtree.Leaves (node : Subtree) : Lift.Outcome → Records → Prop
  | alreadyLegal : Leaves node .alreadyLegal 0
  | relocated (place : Place) (steps : Nat) : Leaves node (.relocated place steps) 0
  | absorbed {node' parent parent' : Subtree} {rule : Transfer} {fresh : NodeId} {slot : Nat}
    (steps : Nat) (hnode : node'.blank = node.blank)
    (hrule : Transfer.between? node'.kind parent.kind = some rule)
    (hcross : rule.cross fresh node' parent slot = .ok (.absorbed parent')) :
    Leaves node (.absorbed steps) ((rule.remnant node').records none).bury

theorem Subtree.Leaves.of_blank_eq {node node' : Subtree} {outcome : Lift.Outcome} {gone : Records}
    (h : node'.Leaves outcome gone) (hnode : node'.blank = node.blank) :
    node.Leaves outcome gone := by
  cases h with
  | alreadyLegal => exact .alreadyLegal
  | relocated place steps => exact .relocated place steps
  | absorbed steps hleft hrule hcross => exact .absorbed steps (hleft.trans hnode) hrule hcross

namespace Tree

/-- The nodes of a tree are those of a subtree, whose top is the root, and dead ones. -/
structure Holds (t : Tree) (s : Subtree) (graves : Records) : Prop where
  stores : t.Stores (s.records none + graves)
  dead : ∀ e ∈ graves, e.2.live = false
  root_eq : t.root = s.id

/-- A subtree that stands nowhere is removed. -/
theorem holds_of_removeSubtree {t : Tree} {old whole : Subtree} {graves : Records}
    (h : t.Stores (old.records none + (whole.records none + graves)))
    (hdead : ∀ e ∈ graves, e.2.live = false) (hroot : t.root = whole.id) :
    (t.removeSubtree old.id).Holds whole ((old.records none).bury + graves) where
  stores := h.removeSubtree.congr (by abel)
  dead := Records.dead_bury_add hdead
  root_eq := by rw [root_removeSubtree, hroot]

/-- The live nodes of a tree are those of a subtree, whose top is the root. -/
def Represents (t : Tree) (s : Subtree) : Prop :=
  ∃ graves, t.Holds s graves

namespace Holds

variable {t : Tree} {s : Subtree} {graves : Records}

theorem represents (h : t.Holds s graves) : t.Represents s :=
  ⟨graves, h⟩

theorem congr {graves' : Records} (h : t.Holds s graves) (he : graves = graves') :
    t.Holds s graves' :=
  he ▸ h

theorem subtree_eq (h : t.Holds s graves) : t.subtree t.root = s := by
  rw [h.root_eq]
  exact h.stores.subtree_eq

theorem toExpr_eq (h : t.Holds s graves) : t.toExpr = s.toExpr :=
  congrArg Subtree.toExpr h.subtree_eq

/-- At the foot of a path stands a subtree, with the path above it. -/
theorem stores_foot {path : Path} (h : t.Holds (path.fill s) graves) :
    t.Stores (s.records path.place? + (path.records s.id + graves)) :=
  h.stores.congr (by rw [path.records_fill, add_assoc])

/-- Above the foot of a path stands the parent. -/
theorem stores_parent {f : Frame} {above : Path} (h : t.Holds (Path.fill (f :: above) s) graves) :
    t.Stores ((f.fill (some s)).records (Path.place? above) + (Path.records above f.id + graves)) :=
  @stores_foot _ _ _ above h

end Holds

namespace Represents

variable {t : Tree} {s : Subtree}

theorem subtree_eq (h : t.Represents s) : t.subtree t.root = s := by
  obtain ⟨_, hholds⟩ := h
  exact hholds.subtree_eq

theorem kind_foot {path : Path} (h : t.Represents (path.fill s)) : t.kind s.id = s.kind := by
  obtain ⟨_, hholds⟩ := h
  exact hholds.stores_foot.kind_eq

theorem place_foot {path : Path} (h : t.Represents (path.fill s)) :
    t.place s.id = path.place? := by
  obtain ⟨_, hholds⟩ := h
  exact hholds.stores_foot.place_eq

theorem kind_parent {f : Frame} {above : Path} (h : t.Represents (Path.fill (f :: above) s)) :
    t.kind f.id = f.kind :=
  @kind_foot _ _ above h

end Represents

namespace Stores

variable {t : Tree} {g : Grammar} {node below left : Subtree} {graves : Records}

theorem ancestors_eq {f : Frame} {above : Path} {m : Records}
    (h : t.Stores ((Path.fill (f :: above) below).records none + m)) :
    t.ancestors f.id = above.map Frame.place := by
  have hparent : t.Stores ((f.fill (some below)).records (Path.place? above) +
      (Path.records above f.id + m)) :=
    h.congr (by rw [Path.fill_cons, Path.records_fill, Frame.fill_id]; abel)
  have hpath : t.Stores (Path.records above (f.fill (some below)).id +
      ((f.fill (some below)).records (Path.place? above) + m)) := by
    rw [Frame.fill_id]
    exact hparent.congr (by abel)
  exact hparent.climb_eq hpath.length_path_le

/-- A node lands in the open slot at the foot of a path, with what stood there as its operand. -/
theorem land {f : Frame} {above : Path} (h : t.Stores (node.records none +
      ((Path.fill (f :: above) below).records none + graves)))
    (hopen : node.slots[1]? = some none) :
    ∃ t', Lift.land node.id f.place t = .ok () t' ∧ t'.root = t.root ∧
      t'.Stores ((Path.fill (f :: above) (node.setChild 1 (some below))).records none +
        graves) := by
  obtain ⟨d, rfl, hd⟩ := Subtree.exists_frame_of_slot hopen
  have hfoot : t.Stores ((f.fill (some below)).records (Path.place? above) +
      ((d.fill none).records none + (Path.records above f.id + graves))) :=
    h.congr (by rw [Path.fill_cons, Path.records_fill, Frame.fill_id]; abel)
  obtain ⟨htake, hout⟩ := hfoot.takeChild
  have hoperand := (hout.congr (show _ = (d.fill none).records none + (below.records none +
    ((f.fill none).records (Path.place? above) + (Path.records above f.id + graves))) by
      abel)).setChild
  have hin := (hoperand.congr (show _ = (f.fill none).records (Path.place? above) +
    ((d.fill (some below)).records none + (Path.records above f.id + graves)) by
      simp only [Subtree.loose]; abel)).setChild
  have hplace : (⟨(d.fill none).id, 1⟩ : Place) = d.place := by
    rw [Frame.place, hd]; rfl
  have hrun : Lift.land (d.fill none).id f.place t =
      .ok () (((t.takeChild f.place).2.setChild d.place below.id).setChild f.place d.id) := by
    rw [← hplace]
    rw [Lift.land, Edit.modifyGet_bind, htake]
    rfl
  refine ⟨_, hrun, by simp, ?_⟩
  rw [← hd, Subtree.setChild_fill]
  refine hin.congr ?_
  rw [Path.fill_cons, Path.records_fill, Frame.fill_id]
  simp only [Subtree.loose, zero_add, add_assoc]

theorem Agrees.of_error {m : Records} {place : Option Place} {cause : Error}
    {r : EStateM.Result Error Tree Verdict} (h : Agrees t left place m (.error cause) r) :
    r = .error cause t := by
  cases r with
  | ok => exact h.elim
  | error cause' t' =>
      obtain ⟨rfl, rfl⟩ := h
      rfl

theorem Agrees.of_rises {m : Records} {place : Option Place} {node' parent' : Subtree}
    {r : EStateM.Result Error Tree Verdict}
    (h : Agrees t left place m (.ok (.rises node' parent')) r) :
    ∃ t', r = .ok .rises t' ∧ t'.root = t.root ∧ t'.nodes.size = t.nodes.size ∧
      t'.Stores (node'.records none + (parent'.records place + m)) := by
  cases r with
  | error => exact h.elim
  | ok verdict t' =>
      cases verdict with
      | rises => exact ⟨t', rfl, h⟩
      | absorbed => exact h.elim

/-- An absorbed node is removed, and the whole is what the parent makes of it. -/
theorem Agrees.of_absorbed {f : Frame} {above : Path} {parent' : Subtree}
    {r : EStateM.Result Error Tree Verdict}
    (h : Agrees t left (Path.place? above) (Path.records above f.id + graves)
      (.ok (.absorbed parent')) r)
    (hdead : ∀ e ∈ graves, e.2.live = false)
    (hroot : t.root = (Path.fill (f :: above) below).id) (hid : parent'.id = f.id) :
    ∃ t', r = .ok .absorbed t' ∧ (t'.removeSubtree left.id).Holds (Path.fill above parent')
      ((left.records none).bury + graves) := by
  cases r with
  | error => exact h.elim
  | ok verdict t' =>
      cases verdict with
      | rises => exact h.elim
      | absorbed =>
          obtain ⟨hroot', hstores⟩ := h
          refine ⟨t', rfl, holds_of_removeSubtree (hstores.congr ?_) hdead ?_⟩
          · rw [Path.records_fill, hid]
            abel
          · rw [hroot', hroot, Path.fill_cons]
            exact (Path.id_fill_congr above hid).symm

/-- A node that is out of its slot is taken up a tree as `Subtree.rise` takes it up a path. -/
theorem rise (g : Grammar) {path : Path} (steps : Nat)
    (h : t.Stores (node.records none + ((path.fill below).records none + graves)))
    (hdead : ∀ e ∈ graves, e.2.live = false)
    (hroot : t.root = (path.fill below).id) (hopen : node.slots[1]? = some none) :
    match node.rise g t.nodes.size below steps path with
    | .error cause => ∃ left,
      Lift.rise g node.id steps (path.map Frame.place) t = .error cause left
    | .ok (outcome, whole) => ∃ t' gone,
      Lift.rise g node.id steps (path.map Frame.place) t = .ok outcome t' ∧
        node.Leaves outcome gone ∧ t'.Holds whole (gone + graves) := by
  induction path generalizing t node below steps with
  | nil =>
      have hkind : t.kind node.id = node.kind := h.kind_eq
      exact ⟨t, by rw [← hkind]; rfl⟩
  | cons f above ih =>
      have hparent : t.Stores (node.records none + ((f.fill (some below)).records
          (Path.place? above) + (Path.records above f.id + graves))) :=
        h.congr (by rw [Path.fill_cons, Path.records_fill, Frame.fill_id, add_assoc])
      have hkind : t.kind node.id = node.kind := h.kind_eq
      have hkind' : t.kind f.place.parent = f.kind :=
        (hparent.congr (show _ = (f.fill (some below)).records (Path.place? above) +
          (node.records none + (Path.records above f.id + graves)) by abel)).kind_eq
      rw [List.map_cons, Lift.rise_cons, hkind, hkind', Subtree.rise]
      by_cases hallows : g.allows f.kind f.slot node.kind = true
      · obtain ⟨t', hland, hroot', hstores⟩ := h.land hopen
        rw [if_pos hallows,
          if_pos (show g.allows f.kind f.place.slot node.kind = true from hallows),
          hland]
        refine ⟨t', 0, rfl, .relocated _ _, hstores.congr (by rw [zero_add]), ?_, ?_⟩
        · rwa [zero_add]
        · rw [hroot', hroot]
          exact Path.id_fill_congr above rfl
      · rw [if_neg hallows,
          if_neg (show ¬ g.allows f.kind f.place.slot node.kind = true from hallows)]
        cases hrule : Transfer.between? node.kind f.kind with
        | none => exact ⟨t, rfl⟩
        | some rule =>
            have happly : Agrees t (rule.remnant node) _ _ _
                (rule.apply ⟨node.id, f.place⟩ t) :=
              hparent.apply f.slot rule
            have habsorbed : ∀ parent',
                rule.cross t.nodes.size node (f.fill (some below)) f.slot =
                  .ok (.absorbed parent') →
                node.Leaves (.absorbed (steps + 1)) ((rule.remnant node).records none).bury :=
              fun _ => .absorbed _ rfl hrule
            dsimp only
            cases hcross : rule.cross t.nodes.size node (f.fill (some below)) f.slot with
            | error cause =>
                rw [hcross] at happly
                exact ⟨t, by rw [happly.of_error]⟩
            | ok crossed =>
                rw [hcross] at happly
                cases Transfer.comes_of_cross hcross with
                | @rises _ node' parent' hnode' hparent' _ _ =>
                    obtain ⟨t', hrun, hroot', hsize, hstores⟩ := happly.of_rises
                    have hwhole : t'.Stores (node'.records none +
                        ((Path.fill above parent').records none + graves)) :=
                      hstores.congr (by
                        rw [Path.records_fill, hparent'.id_eq, Frame.fill_id, add_assoc])
                    have hroot'' : t'.root = (Path.fill above parent').id := by
                      rw [hroot', hroot, Path.fill_cons]
                      exact (Path.id_fill_congr above hparent'.id_eq).symm
                    have hrest := ih (steps + 1) hwhole hroot''
                      ((hnode'.slot_eq (by decide)).trans hopen)
                    rw [hsize, hnode'.id_eq] at hrest
                    rw [hrun]
                    dsimp only
                    cases hrise : node'.rise g t.nodes.size parent' (steps + 1) above with
                    | error cause =>
                        rw [hrise] at hrest
                        exact hrest
                    | ok result =>
                        rw [hrise] at hrest
                        obtain ⟨t'', gone, hup, hleaves, hholds⟩ := hrest
                        exact ⟨t'', gone, hup, hleaves.of_blank_eq hnode'.blank_eq, hholds⟩
                | @absorbed _ parent' hparent' _ =>
                    obtain ⟨t', hrun, hholds⟩ := happly.of_absorbed hdead hroot hparent'.id_eq
                    rw [Transfer.remnant_id] at hholds
                    rw [hrun]
                    exact ⟨_, _, rfl, habsorbed _ hcross, hholds⟩
                | conjoined =>
                    obtain ⟨t', hrun, hholds⟩ := happly.of_absorbed hdead hroot rfl
                    rw [Transfer.remnant_id] at hholds
                    rw [hrun]
                    exact ⟨_, _, rfl, habsorbed _ hcross, hholds⟩

/-- A node leaves its slot to its operand. -/
theorem spliceOut {f : Frame} {above : Path} {operand : Subtree}
    (h : t.Stores ((Path.fill (f :: above) node).records none + graves))
    (hoperand : node.child 1 = some operand) :
    ∃ t', Lift.spliceOut node.id f.place t = .ok () t' ∧ t'.root = t.root ∧
      t'.nodes.size = t.nodes.size ∧
      t'.Stores ((node.setChild 1 none).records none +
        ((Path.fill (f :: above) operand).records none + graves)) := by
  obtain ⟨d, rfl, hd⟩ := Subtree.exists_frame hoperand
  have hfoot : t.Stores ((d.fill (some operand)).records (some f.place) +
      (f.records (Path.place? above) (some d.id) + (Path.records above f.id + graves))) :=
    h.congr (by rw [Path.records_fill, Path.records, Path.place?_cons, Frame.fill_id]; abel)
  obtain ⟨htake, hout⟩ := hfoot.takeChild
  have hin := (hout.congr (show _ = (f.fill (some (d.fill none))).records (Path.place? above) +
    (operand.records none + (Path.records above f.id + graves)) by
      rw [Frame.records_fill_some]; simp only [Frame.fill_id]; abel)).setChild
  have hplace : (⟨(d.fill (some operand)).id, 1⟩ : Place) = d.place := by
    rw [Frame.place, hd]; rfl
  have hrun : Lift.spliceOut (d.fill (some operand)).id f.place t =
      .ok () ((t.takeChild d.place).2.setChild f.place operand.id) := by
    rw [Lift.spliceOut, hplace, Edit.modifyGet_bind, htake]
    rfl
  refine ⟨_, hrun, by simp, by simp, ?_⟩
  rw [← hd, Subtree.setChild_fill]
  refine hin.congr ?_
  rw [Path.fill_cons, Path.records_fill, Frame.fill_id]
  simp only [Subtree.loose]
  abel

theorem spliceOut_vacant {f : Frame} {above : Path}
    (h : t.Stores ((Path.fill (f :: above) node).records none + graves))
    (hoperand : node.child 1 = none) :
    Lift.spliceOut node.id f.place t = .error (.malformedTree (.noOperand node.kind)) t := by
  have hfoot : t.Stores (node.records (some f.place) +
      (Path.records (f :: above) node.id + graves)) :=
    h.congr (by rw [Path.records_fill, Path.place?_cons, add_assoc])
  have hkind : t.kind node.id = node.kind := hfoot.kind_eq
  have htake : t.takeChild ⟨node.id, 1⟩ = (none, t) := by
    rw [Tree.takeChild, hfoot.child_eq, hoperand]
    rfl
  rw [Lift.spliceOut, Edit.modifyGet_bind, htake, ← hkind]
  rfl

end Stores

/-- Lifting a node of a tree is lifting it in the subtree that the tree represents. The dead nodes
stay as they are. -/
theorem Holds.lift {t : Tree} {s : Subtree} {graves : Records} {g : Grammar} {path : Path}
    (h : t.Holds (path.fill s) graves) :
    match s.lift g t.nodes.size path with
    | .error cause => Edit.lift g s.id t = .error cause t
    | .ok (outcome, whole) => ∃ t' gone, Edit.lift g s.id t = .ok outcome t' ∧
      (s.setChild 1 none).Leaves outcome gone ∧ t'.Holds whole (gone + graves) := by
  have hkind := h.represents.kind_foot
  have hplace := h.represents.place_foot
  rw [Edit.lift, Edit.atomically, Lift.run_eq, hplace, hkind]
  cases path with
  | nil => rfl
  | cons f above =>
      have hkind' : t.kind f.place.parent = f.kind := h.represents.kind_parent
      simp only [Path.place?_cons, hkind', Subtree.lift]
      by_cases hallows : g.allows f.kind f.slot s.kind = true
      · rw [if_pos hallows, if_pos (show g.allows f.kind f.place.slot s.kind = true from hallows)]
        exact ⟨t, 0, rfl, .alreadyLegal, by rwa [zero_add]⟩
      · rw [if_neg hallows,
          if_neg (show ¬ g.allows f.kind f.place.slot s.kind = true from hallows)]
        cases hmovable : s.kind.hasOperand with
        | false => rfl
        | true =>
            cases hoperand : s.child 1 with
            | none => simp [h.stores.spliceOut_vacant hoperand]
            | some operand =>
                obtain ⟨t', hrun, hroot, hsize, hstores⟩ := h.stores.spliceOut hoperand
                have habove : t'.ancestors f.place.parent = above.map Frame.place :=
                  (hstores.congr (show _ = (Path.fill (f :: above) operand).records none +
                    (Subtree.records none _ + graves) by abel)).ancestors_eq
                have hopen : (s.setChild 1 none).slots[1]? = some none := by
                  obtain ⟨hlt, _⟩ := List.getElem?_eq_some_iff.mp
                    (Option.join_eq_some_iff.mp hoperand)
                  rw [Subtree.setChild_slots, List.getElem?_set_self hlt]
                have hroot' : t'.root = (Path.fill (f :: above) operand).id := by
                  rw [hroot, h.root_eq]
                  exact Path.id_fill_congr above rfl
                have hrise := hstores.rise g 0 h.dead hroot' hopen
                rw [hsize, Subtree.setChild_id, List.map_cons] at hrise
                simp only [hrun, habove, if_true]
                cases hs : Subtree.rise g t.nodes.size (s.setChild 1 none) operand 0
                    (f :: above) with
                | error cause =>
                    rw [hs] at hrise
                    obtain ⟨left, hleft⟩ := hrise
                    simp only [hleft]
                | ok result =>
                    rw [hs] at hrise
                    obtain ⟨t'', gone, hok, hleaves, hholds⟩ := hrise
                    exact ⟨t'', gone, by simp only [hok], hleaves, hholds⟩

theorem Represents.lift {t : Tree} {s : Subtree} {g : Grammar} {path : Path}
    (h : t.Represents (path.fill s)) :
    match s.lift g t.nodes.size path with
    | .error cause => Edit.lift g s.id t = .error cause t
    | .ok (outcome, whole) => ∃ t', Edit.lift g s.id t = .ok outcome t' ∧ t'.Represents whole := by
  obtain ⟨graves, hholds⟩ := h
  have hsim := hholds.lift (g := g)
  cases hs : s.lift g t.nodes.size path with
  | error cause =>
      rw [hs] at hsim
      exact hsim
  | ok result =>
      rw [hs] at hsim
      obtain ⟨t', _, hlift, _, hwhole⟩ := hsim
      exact ⟨t', hlift, hwhole.represents⟩

end Tree

end FlatSelect
