import FlatSelect.Proofs.Building
import FlatSelect.Proofs.Deviation

/-!
# Trees without numbers

What lifting does to a tree does not depend on how its nodes are numbered. A bare subtree has the
number 0 throughout, so it is its expression in another shape and can be computed with. Transfers
and lifts of bare subtrees are those of the numbered ones with the numbers taken off
(`Subtree.cross_bare`, `Subtree.lift_bare`), and a way down to a node of a bare subtree is a way
down in the numbered one (`Subtree.exists_fill_of_bare`).
-/

namespace FlatSelect

namespace Subtree

mutual
/-- A subtree with its numbers taken off. -/
def bare : Subtree → Subtree
  | .node _ kind value slots => .node 0 kind value (bareIn slots)
/-- What stands in several slots, without numbers. -/
def bareIn : List (Option Subtree) → List (Option Subtree)
  | [] => []
  | none :: rest => none :: bareIn rest
  | some s :: rest => some s.bare :: bareIn rest
end

theorem bareIn_eq_map (slots : List (Option Subtree)) :
    bareIn slots = slots.map (Option.map bare) := by
  induction slots with
  | nil => rfl
  | cons child rest ih => cases child <;> simp [bareIn, ih]

end Subtree

namespace Frame

/-- A frame with its numbers taken off. -/
def bare (f : Frame) : Frame :=
  ⟨0, f.kind, f.value, Subtree.bareIn f.before, Subtree.bareIn f.after⟩

@[simp] theorem bare_kind (f : Frame) : f.bare.kind = f.kind := rfl

@[simp] theorem bare_slot (f : Frame) : f.bare.slot = f.slot := by
  simp [bare, slot, Subtree.bareIn_eq_map]

theorem fill_bare (f : Frame) (hole : Option Subtree) :
    (f.fill hole).bare = f.bare.fill (hole.map Subtree.bare) := by
  simp [fill, Subtree.bare, bare, Subtree.bareIn_eq_map]

end Frame

namespace Path

/-- A path with its numbers taken off. -/
def bare (path : Path) : Path :=
  path.map Frame.bare

theorem fill_bare (path : Path) (s : Subtree) : (path.fill s).bare = path.bare.fill s.bare := by
  induction path generalizing s with
  | nil => rfl
  | cons f above ih => exact (ih _).trans (congrArg (Path.fill _) (f.fill_bare (some s)))

end Path

namespace Subtree

variable {s : Subtree}

@[simp] theorem bare_kind (s : Subtree) : s.bare.kind = s.kind := by
  cases s
  rfl

@[simp] theorem bare_value (s : Subtree) : s.bare.value = s.value := by
  cases s
  rfl

theorem bare_slots (s : Subtree) : s.bare.slots = s.slots.map (Option.map bare) := by
  cases s
  exact bareIn_eq_map _

theorem bare_child (s : Subtree) (slot : Nat) : s.bare.child slot = (s.child slot).map bare := by
  rw [child, child, bare_slots, List.getElem?_map]
  cases s.slots[slot]? <;> rfl

@[simp] theorem bare_slotValue (s : Subtree) (slot : Nat) :
    s.bare.slotValue slot = s.slotValue slot := by
  rw [slotValue, slotValue, bare_child]
  cases s.child slot with
  | none => rfl
  | some c => exact c.bare_value

theorem setChild_bare (s : Subtree) (slot : Nat) (hole : Option Subtree) :
    (s.setChild slot hole).bare = s.bare.setChild slot (hole.map bare) := by
  obtain ⟨id, kind, value, slots⟩ := s
  simp [setChild, bare, Subtree.id, Subtree.kind, Subtree.value, Subtree.slots, bareIn_eq_map,
    List.map_set]

theorem setValue_bare (s : Subtree) (value : Value) :
    (s.setValue value).bare = s.bare.setValue value := by
  cases s
  rfl

theorem setParameter_bare (s : Subtree) (value : Value) :
    (s.setParameter value).bare = s.bare.setParameter value := by
  rw [setParameter, setParameter, bare_child]
  cases s.child 0 with
  | none => rfl
  | some leaf =>
      rw [Option.map_some]
      dsimp only
      rw [setChild_bare, Option.map_some, setValue_bare]

mutual
theorem mapNames_bare (f : String → Option String) :
    ∀ s : Subtree, (s.mapNames f).bare = s.bare.mapNames f
  | .node _ kind value slots => by
    rw [mapNames, bare, bare, mapNames, mapNamesIn_bareIn f slots]
theorem mapNamesIn_bareIn (f : String → Option String) :
    ∀ slots, bareIn (mapNamesIn f slots) = mapNamesIn f (bareIn slots)
  | [] => rfl
  | none :: rest => congrArg (none :: ·) (mapNamesIn_bareIn f rest)
  | some s :: rest => by
    rw [mapNamesIn, bareIn, bareIn, mapNamesIn, mapNames_bare f s, mapNamesIn_bareIn f rest]
end

mutual
theorem preorder_bare : ∀ s : Subtree, s.bare.preorder = s.preorder.map bare
  | .node _ _ _ slots => by
    rw [bare, preorder, preorder, preorderAll_bareIn slots]
    rfl
theorem preorderAll_bareIn : ∀ slots, preorderAll (bareIn slots) = (preorderAll slots).map bare
  | [] => rfl
  | none :: rest => preorderAll_bareIn rest
  | some s :: rest => by
    rw [bareIn, preorderAll, preorderAll, preorder_bare s, preorderAll_bareIn rest, List.map_append]
end

@[simp] theorem bare_mentions (s : Subtree) (name : String) :
    s.bare.mentions name = s.mentions name := by
  simp [mentions, preorder_bare, List.any_map, Function.comp_def]

@[simp] theorem bare_branchAlias? (s : Subtree) : s.bare.branchAlias? = s.branchAlias? := by
  simp [branchAlias?]

@[simp] theorem bare_siblingWildcards (s : Subtree) (slot : Nat) :
    s.bare.siblingWildcards slot = s.siblingWildcards slot := by
  have hentry : ∀ branch : Option Subtree,
      (branch.map bare).bind branchAlias? = branch.bind branchAlias? := by
    intro branch
    cases branch with
    | none => rfl
    | some c => exact c.bare_branchAlias?
  rw [siblingWildcards, siblingWildcards, bare_slots, List.zipIdx_map, List.filter_map,
    List.filterMap_map]
  simp only [Function.comp_def, Prod.map, id_eq, hentry]

@[simp] theorem bare_branchAlias (s : Subtree) : s.bare.branchAlias = s.branchAlias := by
  simp [branchAlias]

@[simp] theorem bare_renamePair (s : Subtree) : s.bare.renamePair = s.renamePair := by
  simp [renamePair]

@[simp] theorem bare_derivedColumn (s : Subtree) : s.bare.derivedColumn = s.derivedColumn := by
  simp [derivedColumn]

@[simp] theorem bare_columns (s : Subtree) : s.bare.columns = s.columns := by
  simp [columns]

theorem bare_predicate (s : Subtree) : s.bare.predicate = s.predicate.map bare := by
  rw [predicate, predicate, bare_child]
  cases s.child 0 <;> rfl

end Subtree

namespace Crossed

/-- A node and its parent with their numbers taken off. -/
def bare : Crossed → Crossed
  | rises node parent => .rises node.bare parent.bare
  | absorbed parent => .absorbed parent.bare

end Crossed

namespace Subtree

theorem bind_map_bare {r : Except Error α} {φ : α → α'} {f : α → Except Error Crossed}
    {f' : α' → Except Error Crossed} (h : ∀ a, f' (φ a) = (f a).map Crossed.bare) :
    r.map φ >>= f' = (r >>= f).map Crossed.bare := by
  cases r with
  | error => rfl
  | ok a => exact h a

theorem bind_bare {r : Except Error α} {f f' : α → Except Error Crossed}
    (h : ∀ a, f' a = (f a).map Crossed.bare) : r >>= f' = (r >>= f).map Crossed.bare := by
  cases r with
  | error => rfl
  | ok a => exact h a

/-- A transfer does not look at numbers. -/
theorem cross_bare (fresh : NodeId) (node parent : Subtree) (slot : Nat) (rule : Transfer) :
    rule.cross 0 node.bare parent.bare slot =
      (rule.cross fresh node parent slot).map Crossed.bare := by
  cases rule with
  | pass => rfl
  | qualifyRename =>
      simp only [Transfer.cross, bare_branchAlias, bare_renamePair]
      exact bind_bare fun _ => bind_bare fun _ => by
        simp [Except.map, pure, Except.pure, Crossed.bare, setParameter_bare]
  | qualifyProjection =>
      simp only [Transfer.cross, bare_branchAlias, bare_columns]
      exact bind_bare fun _ => bind_bare fun _ => by
        simp [Except.map, pure, Except.pure, Crossed.bare, setParameter_bare]
  | qualifyCondition =>
      simp only [Transfer.cross, bare_branchAlias, bare_predicate]
      exact bind_bare fun _ => bind_map_bare fun _ => by
        simp [Except.map, pure, Except.pure, Crossed.bare, setChild_bare, mapNames_bare]
  | renameInCondition =>
      simp only [Transfer.cross, bare_renamePair, bare_predicate]
      exact bind_bare fun _ => bind_map_bare fun _ => by
        simp [Except.map, pure, Except.pure, Crossed.bare, setChild_bare, mapNames_bare]
  | renameInProjection =>
      simp only [Transfer.cross, bare_renamePair, bare_columns]
      refine bind_bare fun pair => bind_bare fun entries => ?_
      cases Columns.foldRename? entries pair.1 pair.2 with
      | none => rfl
      | some => simp [Except.map, pure, Except.pure, Crossed.bare, setParameter_bare]
  | renameInSource =>
      simp only [Transfer.cross, bare_renamePair, bare_derivedColumn]
      exact bind_bare fun _ => bind_bare fun _ => by
        simp [Except.map, pure, Except.pure, Crossed.bare, setParameter_bare]
  | deriveOverProjection =>
      simp only [Transfer.cross, bare_derivedColumn, bare_columns]
      refine bind_bare fun column => bind_bare fun entries => ?_
      cases Columns.selectDerived entries column.1 <;>
        simp [Except.map, pure, Except.pure, Crossed.bare, setParameter_bare]
  | deriveOverCondition =>
      simp only [Transfer.cross, bare_derivedColumn, bare_predicate]
      refine bind_bare fun column => bind_map_bare fun top => ?_
      rw [bare_mentions]
      cases top.mentions column.1 <;> rfl
  | widenProjection =>
      simp only [Transfer.cross, bare_columns, bare_siblingWildcards]
      exact bind_bare fun _ => by
        simp [Except.map, pure, Except.pure, Crossed.bare, setParameter_bare]
  | mergeProjections =>
      simp only [Transfer.cross, bare_columns]
      exact bind_bare fun _ => bind_bare fun _ => by
        simp [Except.map, pure, Except.pure, Crossed.bare, setParameter_bare]
  | conjoinConditions =>
      simp only [Transfer.cross, bare_predicate]
      exact bind_map_bare fun outer => bind_map_bare fun inner => by
        simp [Except.map, pure, Except.pure, Crossed.bare, setChild_bare, bare, bareIn]

/-- How a lift ended and what it left, with the numbers taken off. -/
def bareResult : Lift.Outcome × Subtree → Lift.Outcome × Subtree
  | (.relocated place steps, whole) => (.relocated ⟨0, place.slot⟩ steps, whole.bare)
  | (outcome, whole) => (outcome, whole.bare)

theorem rise_bare (g : Grammar) (fresh : NodeId) (node below : Subtree) (steps : Nat)
    (path : Path) : node.bare.rise g 0 below.bare steps path.bare =
      (node.rise g fresh below steps path).map bareResult := by
  induction path generalizing node below steps with
  | nil => simp [rise, Path.bare, Except.map]
  | cons f above ih =>
      have hfill : f.bare.fill (some below.bare) = (f.fill (some below)).bare :=
        (f.fill_bare (some below)).symm
      have hpath : Path.bare (f :: above) = f.bare :: Path.bare above := rfl
      rw [hpath, rise, rise, Frame.bare_kind, Frame.bare_slot, bare_kind, hfill]
      split
      · simp only [Except.map, bareResult, Path.fill_bare, setChild_bare, Frame.place,
          Frame.bare_slot, hpath]
        rfl
      · cases Transfer.between? node.kind f.kind with
        | none => rfl
        | some rule =>
            dsimp only
            rw [cross_bare fresh]
            cases rule.cross fresh node (f.fill (some below)) f.slot with
            | error => rfl
            | ok crossed =>
                cases crossed with
                | rises node' parent' => exact ih node' parent' (steps + 1)
                | absorbed parent' =>
                    simp only [Except.map, Crossed.bare, bareResult, Path.fill_bare]

/-- Lifting does not look at numbers. -/
theorem lift_bare (g : Grammar) (fresh : NodeId) (node : Subtree) (path : Path) :
    node.bare.lift g 0 path.bare = (node.lift g fresh path).map bareResult := by
  cases path with
  | nil => simp [lift, Path.bare, Except.map]
  | cons f above =>
      have hpath : Path.bare (f :: above) = f.bare :: Path.bare above := rfl
      have hrise := fun operand => rise_bare g fresh (node.setChild 1 none) operand 0 (f :: above)
      simp only [hpath, setChild_bare, Option.map_none] at hrise
      rw [hpath, lift, lift, Frame.bare_kind, Frame.bare_slot, bare_kind, bare_child]
      split
      · simp only [Except.map, bareResult, Path.fill_bare, hpath]
      · split
        · cases node.child 1 with
          | none => rfl
          | some operand => exact hrise operand
        · rfl

/-! ### Taking numbers back -/

/-- A slot of a bare subtree is a slot of the numbered one. -/
theorem exists_frame_of_bare {s c' : Subtree} {f' : Frame} (h : s.bare = f'.fill (some c')) :
    ∃ (f : Frame) (c : Subtree), f.fill (some c) = s ∧ f.bare = f' ∧ c.bare = c' := by
  obtain ⟨id, kind, value, slots⟩ := s
  obtain ⟨id', kind', value', before', after'⟩ := f'
  simp only [bare, Frame.fill, Subtree.node.injEq, bareIn_eq_map] at h
  obtain ⟨rfl, rfl, rfl, hslots⟩ := h
  obtain ⟨before, rest, rfl, hbefore, hrest⟩ := List.map_eq_append_iff.mp hslots
  obtain ⟨hole, after, rfl, hhole, hafter⟩ := List.map_eq_cons_iff.mp hrest
  obtain ⟨c, rfl, hc⟩ := Option.map_eq_some_iff.mp hhole
  exact ⟨⟨id, kind, value, before, after⟩, c, rfl,
    by simp [Frame.bare, bareIn_eq_map, hbefore, hafter], hc⟩

/-- A way down a bare subtree is a way down the numbered one. -/
theorem exists_fill_of_bare {s node' : Subtree} {path' : Path} (h : s.bare = path'.fill node') :
    ∃ (path : Path) (node : Subtree),
      path.fill node = s ∧ path.bare = path' ∧ node.bare = node' :=
  Path.exists_fill_of_frames exists_frame_of_bare h

mutual
theorem deviation?_bare (g : Grammar) (expected : KindSet) :
    ∀ s : Subtree, s.bare.deviation? g expected = (s.deviation? g expected).map fun _ => 0
  | .node _ kind _ slots => by
    rw [bare, deviation?, deviation?, deviationIn?_bareIn g kind 0 slots]
    split <;> rfl
theorem deviationIn?_bareIn (g : Grammar) (parent : Kind) (slot : Nat) : ∀ slots,
    deviationIn? g parent slot (bareIn slots) = (deviationIn? g parent slot slots).map fun _ => 0
  | [] => rfl
  | none :: rest => deviationIn?_bareIn g parent (slot + 1) rest
  | some s :: rest => by
    rw [bareIn, deviationIn?, deviationIn?, deviation?_bare g _ s,
      deviationIn?_bareIn g parent (slot + 1) rest]
    cases s.deviation? g (g.childKinds parent slot) <;> rfl
end

mutual
@[simp] theorem toExpr_bare : ∀ s : Subtree, s.bare.toExpr = s.toExpr
  | .node _ kind value slots => by rw [bare, toExpr, toExpr, toExprs_bareIn slots]
theorem toExprs_bareIn : ∀ slots, toExprs (bareIn slots) = toExprs slots
  | [] => rfl
  | none :: rest => toExprs_bareIn rest
  | some s :: rest => by rw [bareIn, toExprs, toExprs, toExpr_bare s, toExprs_bareIn rest]
end

mutual
@[simp] theorem full_bare : ∀ s : Subtree, s.bare.full = s.full
  | .node _ _ _ slots => fullAll_bareIn slots
theorem fullAll_bareIn : ∀ slots, fullAll (bareIn slots) = fullAll slots
  | [] => rfl
  | none :: _ => rfl
  | some s :: rest => by rw [bareIn, fullAll, fullAll, full_bare s, fullAll_bareIn rest]
end

end Subtree

theorem Path.expected_bare (g : Grammar) (roots : KindSet) (path : Path) :
    path.bare.expected g roots = path.expected g roots := by
  cases path with
  | nil => rfl
  | cons f above => exact congrArg (g.childKinds f.kind) f.bare_slot

theorem Path.clear_of_bare {g : Grammar} {roots : KindSet} {path : Path}
    (h : path.bare.Clear g roots) : path.Clear g roots := by
  induction path with
  | nil => trivial
  | cons f above ih =>
      obtain ⟨hkind, hbefore, habove⟩ := h
      refine ⟨?_, ?_, ih habove⟩
      · rwa [← Path.expected_bare]
      · rw [Frame.bare_kind, Frame.bare, Subtree.deviationIn?_bareIn] at hbefore
        exact Option.map_eq_none_iff.mp hbefore

/-! ### Expressions as bare subtrees -/

namespace Expr

mutual
/-- An expression as a subtree without numbers. -/
def bare : Expr → Subtree
  | .node kind value children => .node 0 kind value (bareAll children)
/-- Several expressions, one in each slot. -/
def bareAll : List Expr → List (Option Subtree)
  | [] => []
  | e :: es => some e.bare :: bareAll es
end

mutual
@[simp] theorem toExpr_bare : ∀ e : Expr, e.bare.toExpr = e
  | .node kind value children => by rw [bare, Subtree.toExpr, toExprs_bareAll children]
theorem toExprs_bareAll : ∀ es : List Expr, Subtree.toExprs (bareAll es) = es
  | [] => rfl
  | e :: es => by rw [bareAll, Subtree.toExprs, toExpr_bare e, toExprs_bareAll es]
end

mutual
@[simp] theorem full_bare : ∀ e : Expr, e.bare.full = true
  | .node _ _ children => fullAll_bareAll children
theorem fullAll_bareAll : ∀ es : List Expr, Subtree.fullAll (bareAll es) = true
  | [] => rfl
  | e :: es => by rw [bareAll, Subtree.fullAll, full_bare e, fullAll_bareAll es]; rfl
end

end Expr

namespace Subtree

mutual
/-- Without vacant slots a subtree is its expression and its numbers. -/
theorem bare_eq_of_full : ∀ {s : Subtree}, s.full = true → s.bare = s.toExpr.bare
  | .node _ kind value slots, h => by
    rw [bare, toExpr, Expr.bare, @bareIn_eq_of_full slots h]
theorem bareIn_eq_of_full : ∀ {slots : List (Option Subtree)}, fullAll slots = true →
    bareIn slots = Expr.bareAll (toExprs slots)
  | [], _ => rfl
  | none :: _, h => absurd h (by simp [fullAll])
  | some s :: rest, h => by
    rw [fullAll, Bool.and_eq_true] at h
    rw [bareIn, toExprs, Expr.bareAll, bare_eq_of_full h.1, bareIn_eq_of_full h.2]
end

end Subtree

namespace Tree

/-- A tree represents a subtree that is `s` but for the numbers. -/
def Bears (t : Tree) (s : Subtree) : Prop :=
  ∃ numbered, t.Represents numbered ∧ numbered.bare = s

/-- A tree that is built from an expression bears it. -/
theorem bears_of_ofExpr {e : Expr} {t : Tree} (h : ofExpr e = .ok t) : t.Bears e.bare := by
  obtain ⟨s, hrep, rfl, hfull⟩ := represents_of_ofExpr h
  exact ⟨s, hrep, Subtree.bare_eq_of_full hfull⟩

/-- A tree that bears an expression is, when compacted, the tree of that expression. -/
theorem Bears.ofExpr_eq {e : Expr} {t : Tree} (h : t.Bears e.bare) (hcheck : e.check = .ok ()) :
    ofExpr e = .ok t.compact := by
  obtain ⟨s, hrep, hs⟩ := h
  have hexpr : s.toExpr = e := by rw [← Subtree.toExpr_bare, hs, Expr.toExpr_bare]
  have hfull : s.full = true := by rw [← Subtree.full_bare, hs, Expr.full_bare]
  rw [← hexpr]
  exact hrep.ofExpr_toExpr hfull (hexpr ▸ hcheck)

end Tree

end FlatSelect
