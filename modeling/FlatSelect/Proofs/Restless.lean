import FlatSelect.Proofs.Termination

/-!
# Every node is lifted once

A node that can be lifted off its operand is at rest if it is where it may be, and all the nodes
above it are. The others are restless. Under the grammar of flat selects a lift takes the node that
it lifts from the restless ones and makes no other node restless: whatever the node crosses may
stand below it where it lands, and everything else keeps its parent's kind. So no node is lifted
twice (`Edit.lifts_each_node_once`), and there are no more lifts than nodes that can be lifted.
-/

namespace FlatSelect

namespace Expr

mutual
/-- The number of nodes of the kinds that are `marked`. -/
def count (marked : Kind → Bool) : Expr → Nat
  | .node kind _ children => (if marked kind then 1 else 0) + countAll marked children
/-- The number of such nodes in several expressions. -/
def countAll (marked : Kind → Bool) : List Expr → Nat
  | [] => 0
  | e :: es => e.count marked + countAll marked es
end

end Expr

namespace Subtree

mutual
theorem count_toExpr (marked : Kind → Bool) : ∀ s : Subtree, s.toExpr.count marked = s.count marked
  | .node _ _ _ slots => by rw [toExpr, Expr.count, count, countAll_toExprs marked slots]
theorem countAll_toExprs (marked : Kind → Bool) :
    ∀ slots, Expr.countAll marked (toExprs slots) = countIn marked slots
  | [] => rfl
  | none :: rest => countAll_toExprs marked rest
  | some s :: rest => by
    rw [toExprs, Expr.countAll, countIn, count_toExpr marked s, countAll_toExprs marked rest]
end

/-! ### Nodes that can be lifted -/

/-- The nodes in several slots that can be lifted off their operands. -/
def movableIn (slots : List (Option Subtree)) : Multiset NodeId :=
  ((preorderAll slots).filter fun n => n.kind.hasOperand).map id

/-- The nodes that can be lifted off their operands. -/
def movable (s : Subtree) : Multiset NodeId :=
  (s.preorder.filter fun n => n.kind.hasOperand).map id

theorem movable_eq (s : Subtree) :
    s.movable = (if s.kind.hasOperand then {s.id} else 0) + movableIn s.slots := by
  obtain ⟨id, kind, value, slots⟩ := s
  cases h : kind.hasOperand <;>
    simp [movable, movableIn, preorder, Subtree.kind, Subtree.id, Subtree.slots, h]

@[simp] theorem movableIn_nil : movableIn [] = 0 := rfl

@[simp] theorem movableIn_none (rest : List (Option Subtree)) :
    movableIn (none :: rest) = movableIn rest := rfl

@[simp] theorem movableIn_some (s : Subtree) (rest : List (Option Subtree)) :
    movableIn (some s :: rest) = s.movable + movableIn rest := by
  simp [movableIn, movable, preorderAll]

@[simp] theorem movableIn_append (left right : List (Option Subtree)) :
    movableIn (left ++ right) = movableIn left + movableIn right := by
  simp [movableIn, preorderAll_append]

theorem movable_blank (s : Subtree) : s.blank.movable = s.movable := by
  simp [movable, preorder_blank, List.filter_map, Function.comp_def]

theorem movable_le_ids (s : Subtree) : s.movable ≤ s.ids :=
  Multiset.coe_le.mpr (List.filter_sublist.map id).subperm

theorem mem_movable {s : Subtree} {node : NodeId} :
    node ∈ s.movable ↔ ∃ n ∈ s.preorder, n.kind.hasOperand = true ∧ n.id = node := by
  simp [movable, and_assoc]

mutual
theorem card_movable : ∀ s : Subtree, s.movable.card = s.count Kind.hasOperand
  | .node id kind value slots => by
    rw [movable_eq, Multiset.card_add, count]
    change _ + (movableIn slots).card = _
    rw [card_movableIn slots]
    cases h : kind.hasOperand <;> simp [Subtree.kind, h]
theorem card_movableIn : ∀ slots, (movableIn slots).card = countIn Kind.hasOperand slots
  | [] => rfl
  | none :: rest => card_movableIn rest
  | some s :: rest => by
    rw [movableIn_some, Multiset.card_add, countIn, card_movable s, card_movableIn rest]
end

/-! ### Nodes that are not at rest -/

mutual
/-- The nodes that can be lifted and are not where they may be, or have a node above them that is
not. -/
def restless (g : Grammar) (expected : KindSet) : Subtree → Multiset NodeId
  | .node id kind value slots =>
    if expected.contains kind then restlessIn g kind 0 slots
    else movable (.node id kind value slots)
/-- Such nodes in the slots of a node, counted from `slot`. -/
def restlessIn (g : Grammar) (parent : Kind) (slot : Nat) :
    List (Option Subtree) → Multiset NodeId
  | [] => 0
  | none :: rest => restlessIn g parent (slot + 1) rest
  | some s :: rest => s.restless g (g.childKinds parent slot) + restlessIn g parent (slot + 1) rest
end

variable {g : Grammar} {roots expected : KindSet}

theorem restless_of_expected {s : Subtree} (h : expected.contains s.kind = true) :
    s.restless g expected = restlessIn g s.kind 0 s.slots := by
  cases s
  exact if_pos h

theorem restless_of_not_expected {s : Subtree} (h : expected.contains s.kind = false) :
    s.restless g expected = s.movable := by
  cases s
  exact if_neg (Bool.eq_false_iff.mp h)

theorem restlessIn_append (parent : Kind) (slot : Nat) (left right : List (Option Subtree)) :
    restlessIn g parent slot (left ++ right) =
      restlessIn g parent slot left + restlessIn g parent (slot + left.length) right := by
  induction left generalizing slot with
  | nil => simp [restlessIn]
  | cons head rest ih =>
      cases head <;> simp [restlessIn, ih, add_assoc, Nat.add_comm 1]

mutual
theorem restless_le_movable (g : Grammar) (expected : KindSet) :
    ∀ s : Subtree, s.restless g expected ≤ s.movable
  | .node id kind value slots => by
    rw [restless]
    split
    · rw [movable_eq]
      exact (restlessIn_le_movableIn g kind 0 slots).trans (Multiset.le_add_left _ _)
    · exact le_rfl
theorem restlessIn_le_movableIn (g : Grammar) (parent : Kind) (slot : Nat) :
    ∀ slots, restlessIn g parent slot slots ≤ movableIn slots
  | [] => le_rfl
  | none :: rest => restlessIn_le_movableIn g parent (slot + 1) rest
  | some s :: rest => by
    rw [restlessIn, movableIn_some]
    exact add_le_add (restless_le_movable g _ s) (restlessIn_le_movableIn g parent (slot + 1) rest)
end

mutual
theorem restless_blank (g : Grammar) (expected : KindSet) :
    ∀ s : Subtree, s.blank.restless g expected = s.restless g expected
  | .node id kind value slots => by
    rw [blank, restless, restless, restlessIn_blankIn g kind 0 slots]
    split
    · rfl
    · exact movable_blank (.node id kind value slots)
theorem restlessIn_blankIn (g : Grammar) (parent : Kind) (slot : Nat) :
    ∀ slots, restlessIn g parent slot (blankIn slots) = restlessIn g parent slot slots
  | [] => rfl
  | none :: rest => restlessIn_blankIn g parent (slot + 1) rest
  | some s :: rest => by
    rw [blankIn, restlessIn, restlessIn, restless_blank g _ s,
      restlessIn_blankIn g parent (slot + 1) rest]
end

end Subtree

namespace Frame

/-- The restless nodes beside the open slot of a node that is at rest. -/
def restless (g : Grammar) (f : Frame) : Multiset NodeId :=
  Subtree.restlessIn g f.kind 0 f.before + Subtree.restlessIn g f.kind (f.slot + 1) f.after

variable {g : Grammar} {expected : KindSet}

theorem restlessIn_fill_none (f : Frame) :
    Subtree.restlessIn g f.kind 0 (f.fill none).slots = f.restless g := by
  simp only [fill_slots, Subtree.restlessIn_append, Subtree.restlessIn, Nat.zero_add, restless,
    slot]

theorem restlessIn_fill_some (f : Frame) (s : Subtree) :
    Subtree.restlessIn g f.kind 0 (f.fill (some s)).slots =
      f.restless g + s.restless g (g.childKinds f.kind f.slot) := by
  simp only [fill_slots, Subtree.restlessIn_append, Subtree.restlessIn, Nat.zero_add, restless,
    slot]
  abel

theorem restless_fill (f : Frame) (s : Subtree) (h : expected.contains f.kind = true) :
    (f.fill (some s)).restless g expected =
      f.restless g + s.restless g (g.childKinds f.kind f.slot) := by
  rw [Subtree.restless_of_expected h, fill_kind, restlessIn_fill_some]

theorem movable_fill (f : Frame) (s : Subtree) :
    (f.fill (some s)).movable = (f.fill none).movable + s.movable := by
  rw [Subtree.movable_eq (f.fill (some s)), Subtree.movable_eq (f.fill none), add_assoc]
  congr 1
  simp only [fill_slots, Subtree.movableIn_append, Subtree.movableIn_some, Subtree.movableIn_none]
  abel

end Frame

namespace Path

/-- The restless nodes beside a path on which all nodes are at rest. -/
def restless (g : Grammar) : Path → Multiset NodeId
  | [] => 0
  | f :: above => f.restless g + restless g above

theorem restless_fill {g : Grammar} {roots : KindSet} {path : Path} (h : path.Clear g roots)
    (s : Subtree) :
    (path.fill s).restless g roots = path.restless g + s.restless g (path.expected g roots) := by
  induction path generalizing s with
  | nil => exact (zero_add _).symm
  | cons f above ih =>
      obtain ⟨hkind, _, habove⟩ := h
      rw [fill_cons, ih habove, f.restless_fill s hkind, restless, expected]
      abel

end Path

namespace Subtree

variable {roots expected : KindSet} {fresh : NodeId} {node below whole : Subtree} {path : Path}
  {steps : Nat} {outcome : Lift.Outcome}

theorem restless_eq_of_blank_eq {s s' : Subtree} (g : Grammar) (h : s'.blank = s.blank) :
    s'.restless g expected = s.restless g expected := by
  rw [← restless_blank, h, restless_blank]

theorem restlessIn_eq_of_blank_eq {s s' : Subtree} (g : Grammar) (h : s'.blank = s.blank) :
    restlessIn g s'.kind 0 s'.slots = restlessIn g s.kind 0 s.slots := by
  have hkind : s'.kind = s.kind := by rw [← blank_kind, h, blank_kind]
  have hslots : blankIn s'.slots = blankIn s.slots := by
    rw [blankIn_eq_map, ← blank_slots, h, blank_slots, blankIn_eq_map]
  rw [← restlessIn_blankIn, hkind, hslots, restlessIn_blankIn]

/-- Where two slots both take a node, what is restless in it is the same. -/
theorem restless_congr {g : Grammar} {expected' : KindSet} {s : Subtree}
    (h : expected.contains s.kind = true) (h' : expected'.contains s.kind = true) :
    s.restless g expected = s.restless g expected' := by
  rw [restless_of_expected h, restless_of_expected h']

end Subtree

/-! ### Lifts under the grammar of flat selects -/

namespace Grammar

/-- Nodes that can be lifted may stand in the operand slots of a query and of the nodes stacked on a
relation, and nowhere else. -/
theorem flatSelect_slot_of_allows {parent node : Kind} {slot : Nat}
    (hnode : node.hasOperand = true) (h : flatSelect.allows parent slot node = true) :
    slot = 1 ∧ (parent = .assign ∨ parent = .rename ∨ parent = .extraColumn ∨
      parent = .projection) := by
  have hslot : slot = 0 ∨ slot = 1 := by
    rcases slot with _ | _ | slot
    · exact .inl rfl
    · exact .inr rfl
    · cases parent <;> exact absurd (show false = true from h) (by decide)
  cases node <;> simp only [Kind.hasOperand, Bool.false_eq_true] at hnode <;>
    cases parent <;> rcases hslot with rfl | rfl <;> revert h <;> decide

/-- Where a slot takes a node and also something that the node can be lifted past, the node takes
that for its operand. -/
theorem flatSelect_takes_crossed {parent node below : Kind} {slot : Nat}
    (hnode : node.hasOperand = true) (hcrosses : Transfer.crosses node below = true)
    (h : flatSelect.allows parent slot node = true)
    (hbelow : flatSelect.allows parent slot below = true) :
    flatSelect.allows node 1 below = true := by
  obtain ⟨rfl, hparent⟩ := flatSelect_slot_of_allows hnode h
  cases node <;> simp only [Kind.hasOperand, Bool.false_eq_true] at hnode <;>
    cases below <;> first
    | exact absurd hcrosses (by decide)
    | decide
    | (exfalso; rcases hparent with rfl | rfl | rfl | rfl <;> revert h hbelow <;> decide)

end Grammar

namespace Subtree

variable {roots expected : KindSet} {fresh : NodeId} {node below whole : Subtree} {path : Path}
  {steps : Nat} {outcome : Lift.Outcome}

/-- A parent that absorbs a node makes nothing restless but what was so in the node. -/
theorem restless_absorbed {rule : Transfer} {f : Frame} {above : Path} {parent' : Subtree}
    (hclear : Path.Clear .flatSelect roots (f :: above))
    (hrule : Transfer.between? node.kind f.kind = some rule)
    (h : rule.Comes fresh node (f.fill (some below)) (.absorbed parent')) :
    (above.fill parent').restless .flatSelect roots ≤
      restlessIn .flatSelect node.kind 0 node.slots +
        (Path.fill (f :: above) below).restless .flatSelect roots := by
  cases h with
  | absorbed hparent _ =>
      rw [restless_eq_of_blank_eq _ (above.fill_blank_congr hparent.blank_eq)]
      exact Multiset.le_add_left _ _
  | @conjoined outer inner houter hinner =>
      -- The two predicates stand under a conjunction now, which takes what a condition takes.
      have hkinds := Transfer.condition_of_conjoinConditions hrule
      obtain ⟨p, hp, hslot⟩ := exists_frame houter
      obtain ⟨d, rfl, hd⟩ := exists_frame hinner
      have hpkind : p.kind = .condition := (congrArg Subtree.kind hp).trans hkinds.2
      have hdkind : d.kind = .condition := hkinds.1
      obtain ⟨hkind, _, habove⟩ := hclear
      have hpexpected : (above.expected .flatSelect roots).contains p.kind = true := by
        rw [hpkind, ← hkinds.2]
        exact hkind
      have hset : ∀ hole, (f.fill (some below)).setChild 0 hole = p.fill hole := by
        intro hole
        rw [← hp, ← hslot, setChild_fill]
      have hboth : (Subtree.node fresh .and none [some outer, some inner]).restless .flatSelect
          (Grammar.flatSelect.childKinds .condition 0) =
            outer.restless .flatSelect (Grammar.flatSelect.childKinds .condition 0) +
              inner.restless .flatSelect (Grammar.flatSelect.childKinds .condition 0) :=
        congrArg (outer.restless .flatSelect _ + ·) (add_zero _)
      rw [Path.fill_cons, hset, ← hp, Path.restless_fill habove, Path.restless_fill habove,
        p.restless_fill _ hpexpected, p.restless_fill _ hpexpected, Frame.fill_kind,
        d.restlessIn_fill_some, hpkind, hdkind, hslot, hd, hboth]
      refine le_of_le_of_eq (Multiset.le_add_left _ (d.restless .flatSelect)) ?_
      abel

/-- A node that is carried up makes nothing restless but what was so in the node, if it does not
land on something that it has not crossed. -/
theorem Rises.restless_le (hopen : node.slots[1]? = some none)
    (hkind : node.kind.hasOperand = true) (hclear : path.Clear .flatSelect roots)
    (hland : (path.expected .flatSelect roots).contains node.kind = true →
      (path.expected .flatSelect roots).contains below.kind = true ∧
        Transfer.crosses node.kind below.kind = true)
    (h : Rises .flatSelect fresh node below steps path outcome whole) :
    whole.restless .flatSelect roots ≤ restlessIn .flatSelect node.kind 0 node.slots +
      (path.fill below).restless .flatSelect roots := by
  induction h with
  | @lands node below steps f above hallows =>
      obtain ⟨d, rfl, hd⟩ := exists_frame_of_slot hopen
      have hnode : (Path.expected .flatSelect roots (f :: above)).contains d.kind = true := hallows
      obtain ⟨hbelow, hcrosses⟩ := hland hnode
      have htakes : (Grammar.flatSelect.childKinds d.kind d.slot).contains below.kind = true := by
        rw [hd]
        exact Grammar.flatSelect_takes_crossed hkind hcrosses hallows hbelow
      rw [← hd, setChild_fill, Path.restless_fill hclear, Path.restless_fill hclear,
        d.restless_fill below hnode, restless_congr htakes hbelow, Frame.fill_kind,
        d.restlessIn_fill_none]
      exact le_of_eq (by abel)
  | @crosses node below node' parent' whole steps f above rule outcome _ hrule hcross _ ih =>
      have hcomes := Transfer.comes_of_cross hcross
      have hcrosses := crosses_of_rises hrule hcomes
      cases hcomes with
      | rises hnode hparent _ _ =>
          have hparentKind : parent'.kind = f.kind := hparent.kind_eq
          have h := ih ((hnode.slot_eq (by decide)).trans hopen) (by rwa [hnode.kind_eq])
            hclear.2.2 fun _ => ⟨by rw [hparentKind]; exact hclear.1,
              by rwa [hnode.kind_eq, hparentKind]⟩
          rwa [restlessIn_eq_of_blank_eq _ hnode.blank_eq,
            restless_eq_of_blank_eq _ (above.fill_blank_congr hparent.blank_eq)] at h
  | absorbed _ hrule hcross =>
      exact restless_absorbed hclear hrule (Transfer.comes_of_cross hcross)

/-- A lift of the first deviation takes the node that it lifts from the restless ones. -/
theorem restless_of_lift {f : Frame} {above : Path}
    (hclear : Path.Clear .flatSelect roots (f :: above))
    (hforbidden : (Path.expected .flatSelect roots (f :: above)).contains node.kind = false)
    (h : node.lift .flatSelect fresh (f :: above) = .ok (outcome, whole)) :
    {node.id} + whole.restless .flatSelect roots ≤
      (Path.fill (f :: above) node).restless .flatSelect roots := by
  obtain ⟨d, operand, rfl, hd, hkind, hrises⟩ := exists_rises_of_lift hforbidden h
  have hle := hrises.restless_le (open_fill_none hd) hkind hclear fun hnode =>
    absurd (hforbidden.symm.trans hnode) (by decide)
  have hslots : restlessIn .flatSelect d.kind 0 (d.fill none).slots ≤
      movableIn (d.fill none).slots :=
    restlessIn_le_movableIn ..
  have hoperand : operand.restless .flatSelect (Path.expected .flatSelect roots (f :: above)) ≤
      operand.movable :=
    restless_le_movable ..
  have hmovable : (d.fill (some operand)).movable =
      {d.id} + movableIn (d.fill none).slots + operand.movable := by
    rw [d.movable_fill, movable_eq, Frame.fill_kind, if_pos hkind, Frame.fill_id]
  rw [Path.restless_fill hclear] at hle ⊢
  rw [restless_of_not_expected hforbidden, hmovable, Frame.fill_id]
  calc {d.id} + whole.restless .flatSelect roots
      ≤ {d.id} + (movableIn (d.fill none).slots +
          (Path.restless .flatSelect (f :: above) + operand.movable)) :=
        add_le_add le_rfl (hle.trans (add_le_add hslots (add_le_add le_rfl hoperand)))
    _ = _ := by abel

end Subtree

namespace Edit

/-- First deviations have been lifted, these nodes in this order. -/
inductive LiftsInTurn (g : Grammar) (roots : KindSet) : Tree → List NodeId → Tree → Prop
  | done (t : Tree) : LiftsInTurn g roots t [] t
  | lift {t t' last : Tree} {node : NodeId} {nodes : List NodeId} {outcome : Lift.Outcome}
    (hdeviation : t.deviation? g roots = some node) (hlift : lift g node t = .ok outcome t')
    (hrest : LiftsInTurn g roots t' nodes last) : LiftsInTurn g roots t (node :: nodes) last

variable {g : Grammar} {roots : KindSet} {t last : Tree} {s : Subtree} {nodes : List NodeId}

/-- Lifting without a budget ends like this when it has come to `last`. -/
def Ending.At (g : Grammar) (roots : KindSet) (last : Tree) : Ending → Prop
  | .canonical last' => last' = last
  | .stuck cause => ∃ node left, last.deviation? g roots = some node ∧
    Edit.lift g node last = .error cause left

/-- Where lifting without a budget ends, there it has come by lifting nodes in turn. -/
theorem Settles.exists_liftsInTurn {outcomes : List Lift.Outcome} {ending : Ending}
    (h : Settles g roots t outcomes ending) :
    ∃ nodes last, LiftsInTurn g roots t nodes last ∧ nodes.length = outcomes.length ∧
      ending.At g roots last := by
  induction h with
  | canonical => exact ⟨[], _, .done _, rfl, rfl⟩
  | stuck hdeviation hlift => exact ⟨[], _, .done _, rfl, _, _, hdeviation, hlift⟩
  | lift hdeviation hlift _ ih =>
      obtain ⟨nodes, last, hnodes, hlength, hending⟩ := ih
      exact ⟨_, last, .lift hdeviation hlift hnodes, congrArg Nat.succ hlength, hending⟩

/-- What has been lifted was restless and is so no more. -/
theorem LiftsInTurn.restless_le (h : LiftsInTurn .flatSelect roots t nodes last)
    (hrep : t.Represents s) : ∃ s', last.Represents s' ∧
      (nodes : Multiset NodeId) + s'.restless .flatSelect roots ≤ s.restless .flatSelect roots := by
  induction h generalizing s with
  | done => exact ⟨s, hrep, by simp⟩
  | lift hdeviation hlift _ ih =>
      rw [Tree.deviation?, hrep.subtree_eq] at hdeviation
      obtain ⟨path, below, rfl, rfl, hclear, htakes⟩ :=
        Subtree.exists_path_of_deviation hdeviation
      obtain ⟨whole, hwhole, hrep'⟩ := hrep.of_lift hlift
      cases path with
      | nil => cases hwhole
      | cons f above =>
          obtain ⟨s', hlast, hle⟩ := ih hrep'
          refine ⟨s', hlast, le_trans ?_ (Subtree.restless_of_lift hclear htakes hwhole)⟩
          rw [← Multiset.cons_coe, ← Multiset.singleton_add, add_assoc]
          exact add_le_add le_rfl hle

theorem LiftsInTurn.le_movable (h : LiftsInTurn .flatSelect roots t nodes last)
    (hrep : t.Represents s) : (nodes : Multiset NodeId) ≤ s.movable := by
  obtain ⟨s', _, hle⟩ := h.restless_le hrep
  exact (Multiset.le_add_right _ _).trans (hle.trans (s.restless_le_movable _ _))

theorem LiftsInTurn.length_le {e : Expr} (h : LiftsInTurn .flatSelect roots t nodes last)
    (hrep : t.Represents s) (he : s.toExpr = e) : nodes.length ≤ e.count Kind.hasOperand := by
  rw [← he, Subtree.count_toExpr, ← Subtree.card_movable]
  exact Multiset.card_le_card (h.le_movable hrep)

/-- What can be lifted in a subtree are nodes of the tree that represents it. -/
theorem mem_preorder_of_movable {node : NodeId} (hrep : t.Represents s) (h : node ∈ s.movable) :
    node ∈ t.preorder ∧ (t.kind node).hasOperand = true := by
  obtain ⟨n, hn, hkind, rfl⟩ := Subtree.mem_movable.mp h
  obtain ⟨path, rfl⟩ := Subtree.exists_path_of_mem_preorder hn
  rw [Tree.preorder, hrep.subtree_eq, hrep.kind_foot]
  exact ⟨List.mem_map_of_mem hn, hkind⟩

/-- Under the grammar of flat selects the first deviations that are lifted one after the other are
different nodes of the tree, all of them of kinds that can be lifted. So there are at most as many
lifts as such nodes. A normalization spends a smaller budget only, or, if after a lift of every such
node there is a deviation that cannot be lifted, just as large a one. -/
theorem lifts_each_node_once {e : Expr} (roots : KindSet) (h : Tree.ofExpr e = .ok t) :
    (∀ nodes last, LiftsInTurn .flatSelect roots t nodes last → nodes.Nodup ∧
      (∀ node ∈ nodes, node ∈ t.preorder ∧ (t.kind node).hasOperand = true) ∧
      nodes.length ≤ e.count Kind.hasOperand) ∧
    (∀ budget tally flat, normalize .flatSelect roots budget t = .ok tally flat →
      (∃ nodes last, LiftsInTurn .flatSelect roots t nodes last ∧ flat = last.compact ∧
        nodes.length = tally.lifts) ∧ tally.lifts ≤ e.count Kind.hasOperand) ∧
    ∀ budget lifts left, normalize .flatSelect roots budget t =
        .error (.nonCanonicalizable (.budgetSpent lifts)) left →
      budget < e.count Kind.hasOperand ∨
      budget = e.count Kind.hasOperand ∧ ∃ nodes last node cause left',
        LiftsInTurn .flatSelect roots t nodes last ∧ nodes.length = budget ∧
        last.deviation? .flatSelect roots = some node ∧
        lift .flatSelect node last = .error cause left' := by
  obtain ⟨s, hrep, hexpr, _⟩ := Tree.represents_of_ofExpr h
  have hlength : ∀ {nodes last}, LiftsInTurn .flatSelect roots t nodes last →
      nodes.length ≤ e.count Kind.hasOperand := fun hnodes => hnodes.length_le hrep hexpr
  refine ⟨?_, ?_, ?_⟩
  · intro nodes last hnodes
    have hmovable := hnodes.le_movable hrep
    refine ⟨?_, ?_, hlength hnodes⟩
    · obtain ⟨graves, hholds⟩ := hrep
      exact Multiset.coe_nodup.mp (Multiset.nodup_of_le (hmovable.trans s.movable_le_ids)
        (Multiset.coe_nodup.mpr hholds.stores.nodup_ids))
    · intro node hnode
      exact mem_preorder_of_movable hrep (Multiset.mem_of_le hmovable (Multiset.mem_coe.mpr hnode))
  · intro budget tally flat hrun
    obtain ⟨outcomes, last, hsettles, _, rfl, rfl⟩ := exists_settles_of_normalize hrep hrun
    obtain ⟨nodes, _, hnodes, hcount, rfl⟩ := hsettles.exists_liftsInTurn
    have hlifts : nodes.length = (outcomes.foldl Tally.count .zero).lifts := by
      rw [hcount, lifts_foldl_count]
      exact (Nat.zero_add _).symm
    exact ⟨⟨nodes, last, hnodes, rfl, hlifts⟩, hlifts ▸ hlength hnodes⟩
  · intro budget lifts left hrun
    obtain ⟨outcomes, ending, hsettles, hending⟩ := exists_settles_of_normalize_error hrep hrun
    obtain ⟨nodes, last, hnodes, hcount, hstops⟩ := hsettles.exists_liftsInTurn
    have hle := hlength hnodes
    rcases hending with ⟨hstuck, _⟩ | ⟨_, hlt | ⟨heq, obstacle, rfl⟩⟩
    · exact absurd rfl (hsettles.ne_budgetSpent hrep hstuck lifts)
    · exact .inl (by omega)
    · obtain ⟨node, left', hdeviation, hlift⟩ := hstops
      rcases Nat.lt_or_eq_of_le (show budget ≤ e.count Kind.hasOperand by omega) with hlt | hbudget
      · exact .inl hlt
      · exact .inr ⟨hbudget, nodes, last, node, obstacle, left', hnodes, by omega, hdeviation,
          hlift⟩

/-- A rename below a condition: of two nodes that can be lifted none is lifted twice. -/
theorem lifts_each_node_once_rename :
    let e := Expr.assign "V" (.condition (.name "a") (.rename "a" "b" (.input1 "t")))
    ∃ t, Tree.ofExpr e = .ok t ∧ ∀ nodes last,
      LiftsInTurn .flatSelect (.ofList [.assign]) t nodes last →
      nodes.Nodup ∧ nodes.length ≤ 2 := by
  intro e
  obtain ⟨t, ht⟩ : ∃ t, Tree.ofExpr e = .ok t := ⟨_, rfl⟩
  refine ⟨t, ht, ?_⟩
  intro nodes last hnodes
  obtain ⟨hnodup, _, hlength⟩ := (lifts_each_node_once (.ofList [.assign]) ht).1 nodes last hnodes
  exact ⟨hnodup, hlength⟩

/-- A budget that is as large as the number of nodes that can be lifted may be spent: when the
rename has been lifted, the inner join is a deviation that cannot be moved. -/
theorem lifts_spend_whole_budget :
    let e := Expr.assign "T" (.input2 (.renameAll "A" (.rename "x" "y" (.input1 "r")))
      (.input2 (.name "s") (.name "u")))
    ∃ t, Tree.ofExpr e = .ok t ∧ normalize .flatSelect (.ofList [.assign]) 1 t =
      .error (.nonCanonicalizable (.budgetSpent 1)) t ∧ ¬ 1 < e.count Kind.hasOperand := by
  intro e
  let t := Tree.planted e
  have hspent : (match normalize .flatSelect (.ofList [.assign]) 1 t with
      | .error cause _ => decide (cause = .nonCanonicalizable (.budgetSpent 1))
      | .ok _ _ => false) = true := by decide +kernel
  refine ⟨t, Tree.ofExpr_eq_ok.mpr ⟨rfl, rfl⟩, ?_, by decide⟩
  cases hrun : normalize .flatSelect (.ofList [.assign]) 1 t with
  | ok => simp [hrun] at hspent
  | error cause left =>
      rw [hrun] at hspent
      rw [eq_of_atomically_eq_error hrun, of_decide_eq_true hspent]

end Edit

end FlatSelect
