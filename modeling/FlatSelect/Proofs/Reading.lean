import FlatSelect.Proofs.Stack
import FlatSelect.Select

/-!
# Reading flat selects

The layers of a flat select are read as the clauses that they were made for, however the nodes of
the tree are numbered (`Query.select_withClauses`). Each clause is read off the top of the stack,
and what is below it bears the rest of the stack.
-/

namespace FlatSelect

namespace Subtree

/-- What stands in a slot of a bare subtree is what stands in the slot of the numbered one. -/
theorem exists_of_bareIn {slots rest : List (Option Subtree)} {c : Subtree}
    (h : bareIn slots = some c :: rest) :
    ∃ c' rest', slots = some c' :: rest' ∧ c'.bare = c ∧ bareIn rest' = rest := by
  rw [bareIn_eq_map] at h
  obtain ⟨hole, rest', rfl, hhole, hrest⟩ := List.map_eq_cons_iff.mp h
  obtain ⟨c', rfl, hc⟩ := Option.map_eq_some_iff.mp hhole
  exact ⟨c', rest', rfl, hc, by rw [bareIn_eq_map, hrest]⟩

/-- A numbered subtree has the operand that the bare one has. -/
theorem operand_of_bare {s c : Subtree} {f : Frame} (h : s.bare = f.fill (some c))
    (hslot : f.slot = 1) : ∃ below, s.operand = .ok below ∧ below.bare = c := by
  obtain ⟨f', below, rfl, hf, hbelow⟩ := exists_frame_of_bare h
  have hslot' : f'.slot = 1 := by rw [← f'.bare_slot, hf, hslot]
  refine ⟨below, ?_, hbelow⟩
  rw [operand, ← hslot', f'.child_fill]

end Subtree

namespace Formula

/-- The text of a predicate. -/
def text : Formula → String
  | name text => Predicate.leaf text
  | not operand => Predicate.negation operand.text
  | binary kind infixed left right =>
    Predicate.application (kind.sqlOperator.get infixed) left.text right.text

theorem predicateText_of_bare {p : Formula} {s : Subtree} (h : s.bare = p.toExpr.bare) :
    s.predicateText = .ok p.text := by
  induction p generalizing s with
  | name text =>
      obtain ⟨id, kind, value, slots⟩ := s
      simp only [bare_name, Subtree.bare, Subtree.node.injEq] at h
      obtain ⟨_, rfl, rfl, _⟩ := h
      rfl
  | not operand ih =>
      obtain ⟨id, kind, value, slots⟩ := s
      simp only [bare_not, Subtree.bare, Subtree.node.injEq] at h
      obtain ⟨_, rfl, rfl, hslots⟩ := h
      obtain ⟨inner, rest, rfl, hinner, _⟩ := Subtree.exists_of_bareIn hslots
      rw [Subtree.predicateText, ih hinner]
      rfl
  | binary kind infixed left right ihl ihr =>
      obtain ⟨id, kind', value, slots⟩ := s
      simp only [bare_binary, Subtree.bare, Subtree.node.injEq] at h
      obtain ⟨_, rfl, rfl, hslots⟩ := h
      obtain ⟨l, rest, rfl, hl, hrest⟩ := Subtree.exists_of_bareIn hslots
      obtain ⟨r, rest, rfl, hr, _⟩ := Subtree.exists_of_bareIn hrest
      have hread : (Subtree.node id kind' none (some l :: some r :: rest)).predicateText =
          (do
            let leftText ← l.predicateText
            let rightText ← r.predicateText
            return Predicate.application (kind'.sqlOperator.get infixed) leftText rightText) := by
        cases kind' <;> first | rfl | exact absurd infixed (by decide)
      rw [hread, ihl hl, ihr hr]
      rfl

end Formula

namespace Layer

variable {s : Subtree} {e : Expr}

theorem operand_of_bare {layer : Layer} (h : s.bare = (layer.wrap e).bare) :
    ∃ below, s.operand = .ok below ∧ below.bare = e.bare :=
  Subtree.operand_of_bare (h.trans (bare_wrap layer e)) layer.frame_slot

theorem kind_of_bare {layer : Layer} (h : s.bare = (layer.wrap e).bare) : s.kind = layer.kind := by
  rw [← s.bare_kind, h, bare_wrap]
  rfl

theorem conditionText_of_bare {predicate : Formula}
    (h : s.bare = ((condition predicate).wrap e).bare) :
    s.conditionText = .ok predicate.text := by
  have hchild : (s.child 0).map Subtree.bare = some predicate.toExpr.bare := by
    rw [← s.bare_child, h]
    rfl
  obtain ⟨top, htop, hbare⟩ := Option.map_eq_some_iff.mp hchild
  rw [Subtree.conditionText, htop]
  exact Formula.predicateText_of_bare hbare

/-- The kind at the top of a stack is that of the layers or that of what they stand on. -/
theorem kind_stack_ne {α : Type} (layer : α → Layer) {kind other : Kind}
    (hkind : ∀ a, (layer a).kind = other) (hne : other ≠ kind) (he : e.bare.kind ≠ kind)
    (as : List α) : (stack (as.map layer) e).bare.kind ≠ kind := by
  cases as with
  | nil => exact he
  | cons a as =>
      have hstack : stack ((a :: as).map layer) e = (layer a).wrap (stack (as.map layer) e) := rfl
      rw [hstack, bare_wrap, Frame.fill_kind, frame_kind, hkind]
      exact hne

end Layer

namespace Subtree

variable {α : Type} {clause : Subtree → Except Error α} {kind : Kind} {s : Subtree} {e : Expr}

theorem child_of_operand {below : Subtree} (h : s.operand = .ok below) :
    s.child 1 = some below := by
  rw [operand] at h
  cases hchild : s.child 1 with
  | none =>
      rw [hchild] at h
      cases h
  | some found =>
      rw [hchild] at h
      rw [Except.ok.inj h]

theorem peel_of_operand {below : Subtree} {a : α} (hkind : s.kind = kind)
    (hclause : clause s = .ok a) (hbelow : s.operand = .ok below) :
    s.peel kind clause = (below.peel kind clause).map fun (as, rest) => (a :: as, rest) := by
  obtain ⟨id, top, value, slots⟩ := s
  obtain rfl : top = kind := hkind
  match slots, child_of_operand hbelow with
  | first :: some below :: rest, rfl =>
    rw [peel, if_pos rfl, hclause]
    change below.peel top clause >>= _ = _
    cases below.peel top clause <;> rfl

/-- Layers of one kind are read off the top of a stack. -/
theorem peel_stack (kind : Kind) (clause : Subtree → Except Error α) (layer : α → Layer)
    (hkind : ∀ a, (layer a).kind = kind)
    (hclause : ∀ a e s, s.bare = ((layer a).wrap e).bare → clause s = .ok a)
    (he : e.bare.kind ≠ kind) (as : List α) (h : s.bare = (Layer.stack (as.map layer) e).bare) :
    ∃ below, s.peel kind clause = .ok (as, below) ∧ below.bare = e.bare := by
  induction as generalizing s with
  | nil =>
      have hbare : s.bare = e.bare := h
      refine ⟨s, ?_, hbare⟩
      rw [← hbare, bare_kind] at he
      obtain ⟨id, top, value, slots⟩ := s
      rw [peel]
      exact if_neg he
  | cons a as ih =>
      have hwrap : s.bare = ((layer a).wrap (Layer.stack (as.map layer) e)).bare := h
      obtain ⟨operand, hoperand, hbare⟩ := Layer.operand_of_bare hwrap
      obtain ⟨below, hpeel, hbelow⟩ := ih hbare
      refine ⟨below, ?_, hbelow⟩
      rw [peel_of_operand ((Layer.kind_of_bare hwrap).trans (hkind a)) (hclause a _ s hwrap)
        hoperand, hpeel]
      rfl

/-- A layer that there may be is read off the top of a stack. -/
theorem peelOne_stack {β : Type} (kind : Kind) (clause : Subtree → Except Error α)
    (layer : β → Layer) (read : β → α) (hkind : ∀ b, (layer b).kind = kind)
    (hclause : ∀ b e s, s.bare = ((layer b).wrap e).bare → clause s = .ok (read b))
    (he : e.bare.kind ≠ kind) (b : Option β)
    (h : s.bare = (Layer.stack (b.toList.map layer) e).bare) :
    ∃ below, s.peelOne kind clause = .ok (b.map read, below) ∧ below.bare = e.bare := by
  cases b with
  | none =>
      have hbare : s.bare = e.bare := h
      refine ⟨s, ?_, hbare⟩
      rw [← hbare, bare_kind] at he
      rw [peelOne, if_neg he]
      rfl
  | some b =>
      have hwrap : s.bare = ((layer b).wrap e).bare := h
      obtain ⟨below, hoperand, hbelow⟩ := Layer.operand_of_bare hwrap
      refine ⟨below, ?_, hbelow⟩
      rw [peelOne, if_pos ((Layer.kind_of_bare hwrap).trans (hkind b)), hclause b e s hwrap,
        hoperand]
      rfl

end Subtree

/-! ### Relations -/

/-- A branch without its layers, as one side of a join. -/
def Branch.side : Branch → JoinBranch
  | bare relation => ⟨relation, none⟩
  | aliased asName _ (.name relation) => ⟨relation, some asName⟩
  | aliased asName _ (.input1 relation) => ⟨relation, some asName⟩

/-- Where the rows of a flat select come from. -/
def Source.relation : Source → Relation
  | table relation => .table relation
  | join left right => .join left.side right.side

namespace Subtree

variable {s : Subtree}

theorem nameAt_bare (s : Subtree) (slot : Nat) : s.bare.nameAt slot = s.nameAt slot := by
  rw [nameAt, nameAt, bare_slotValue, bare_kind]

theorem operand_bare (s : Subtree) : s.bare.operand = s.operand.map bare := by
  rw [operand, operand, bare_child, bare_kind]
  cases s.child 1 <;> rfl

theorem joinBranch_bare (s : Subtree) : s.bare.joinBranch = s.joinBranch := by
  rw [joinBranch, joinBranch, bare_kind, bare_value, nameAt_bare, nameAt_bare, operand_bare]
  split
  · rfl
  · cases s.nameAt 0 with
    | error => rfl
    | ok asName =>
        cases s.operand with
        | error => rfl
        | ok inner =>
            simp only [Except.map, bind, Except.bind, bare_kind, nameAt_bare]
  · rfl

theorem joinBranchAt_bare (s : Subtree) (slot : Nat) :
    s.bare.joinBranchAt slot = s.joinBranchAt slot := by
  rw [joinBranchAt, joinBranchAt, bare_child, bare_kind]
  cases s.child slot with
  | none => rfl
  | some branch => exact branch.joinBranch_bare

theorem relation_bare (s : Subtree) : s.bare.relation = s.relation := by
  rw [relation, relation, bare_kind, nameAt_bare, joinBranchAt_bare, joinBranchAt_bare]

end Subtree

namespace Query

/-- The clauses of a flat select, as they are read. -/
def selectOf (q : Query) (c : Clauses) : Select where
  target := q.target
  renames := c.renames
  derived := c.derived
  projection := c.projection
  condition := c.condition.map Formula.text
  relation := q.source.relation

theorem relation_stripped (source : Source) :
    source.stripped.toExpr.bare.relation = .ok source.relation := by
  cases source with
  | table relation => rfl
  | join left right =>
      have hside : ∀ b : Branch, b.stripped.toExpr.bare.joinBranch = .ok b.side := by
        intro b
        cases b with
        | bare relation => rfl
        | aliased asName layers relation => cases relation <;> rfl
      change (do
        let l ← left.stripped.toExpr.bare.joinBranch
        let r ← right.stripped.toExpr.bare.joinBranch
        return Relation.join l r) = _
      rw [hside, hside]
      rfl

theorem kind_stripped (source : Source) : source.stripped.toExpr.bare.kind.isInput = true := by
  cases source <;> rfl

/-- A flat select is read as its clauses. -/
theorem select_withClauses {q : Query} {c : Clauses} {s : Subtree}
    (h : s.bare = (q.withClauses c).toExpr.bare) : s.select = .ok (q.selectOf c) := by
  let source := q.source.stripped.toExpr
  let filtered := Layer.stack (Layer.conditions c.condition) source
  let projected := Layer.stack (Layer.projections c.projection) filtered
  let derived := Layer.stack (Layer.extraColumns c.derived) projected
  have hroot : s.bare = (Clauses.rootFrame q.target).fill
      (some (Layer.stack (Layer.renames c.renames) derived).bare) := by
    rw [h, withClauses, toExpr, Clauses.layers]
    simp only [Layer.stack, List.foldr_append]
    rfl
  have hsource : ∀ kind : Kind, kind.isInput = false → source.bare.kind ≠ kind := by
    rintro kind hkind rfl
    rw [kind_stripped] at hkind
    cases hkind
  have hfiltered : ∀ kind : Kind, kind.isInput = false → .condition ≠ kind →
      filtered.bare.kind ≠ kind := fun kind hkind hne =>
    Layer.kind_stack_ne .condition (fun _ => rfl) hne (hsource kind hkind) _
  have hprojected : ∀ kind : Kind, kind.isInput = false → .condition ≠ kind → .projection ≠ kind →
      projected.bare.kind ≠ kind := fun kind hkind hcondition hne =>
    Layer.kind_stack_ne .projection (fun _ => rfl) hne (hfiltered kind hkind hcondition) _
  have hderived : derived.bare.kind ≠ .rename :=
    Layer.kind_stack_ne (fun column : String × String => .extraColumn column.1 column.2)
      (fun _ => rfl) (show Kind.extraColumn ≠ .rename by decide)
      (hprojected .rename rfl (by decide) (by decide)) c.derived
  have htarget : s.nameAt 0 = .ok q.target := by
    rw [← s.nameAt_bare, hroot]
    rfl
  have hkind : s.kind = .assign := by
    rw [← s.bare_kind, hroot]
    rfl
  obtain ⟨body, hbody, hbare⟩ := Subtree.operand_of_bare hroot rfl
  obtain ⟨body₁, hrenames, hbare₁⟩ := Subtree.peel_stack .rename Subtree.renamePair
    (fun pair : String × String => .rename pair.1 pair.2) (fun _ => rfl)
    (fun pair e s h => by rw [← s.bare_renamePair, h]; rfl) hderived c.renames hbare
  obtain ⟨body₂, hcolumns, hbare₂⟩ := Subtree.peel_stack .extraColumn Subtree.derivedColumn
    (fun column : String × String => .extraColumn column.1 column.2)
    (fun _ => rfl) (fun column e s h => by rw [← s.bare_derivedColumn, h]; rfl)
    (hprojected .extraColumn rfl (by decide) (by decide)) c.derived hbare₁
  obtain ⟨body₃, hprojection, hbare₃⟩ := Subtree.peelOne_stack .projection Subtree.columns
    .projection id (fun _ => rfl)
    (fun entries e s h => by rw [← s.bare_columns, h]; rfl)
    (hfiltered .projection rfl (by decide)) c.projection hbare₂
  obtain ⟨body₄, hcondition, hbare₄⟩ := Subtree.peelOne_stack .condition
    Subtree.conditionText .condition Formula.text (fun _ => rfl)
    (fun predicate e s h => Layer.conditionText_of_bare h)
    (hsource .condition rfl) c.condition hbare₃
  have hrelation : body₄.relation = .ok q.source.relation := by
    rw [← body₄.relation_bare, hbare₄]
    exact relation_stripped q.source
  rw [Subtree.select, if_neg (by simp [hkind]), htarget]
  simp only [bind, Except.bind, hbody, hrenames, hcolumns, hprojection, hcondition, hrelation]
  rw [Option.map_id]
  rfl

end Query

theorem Tree.Bears.select_eq {t : Tree} {q : Query} {c : Clauses}
    (h : t.Bears (q.withClauses c).toExpr.bare) : t.select = .ok (q.selectOf c) := by
  obtain ⟨s, hrep, hs⟩ := h
  rw [Tree.select, hrep.subtree_eq]
  exact Query.select_withClauses hs

end FlatSelect
