import FlatSelect.Proofs.Flattening
import FlatSelect.Proofs.Printable

/-!
# What conforms to the grammar

A flat select has no deviation. Here is the converse: a regular subtree that stands where the
grammar wants one of the kinds that start a nonterminal is the subtree of such an expression. So a
tree that is built from an expression conforms to the grammar exactly if the expression is a flat
select (`Tree.conforms_iff_isFlatSelect`).
-/

namespace FlatSelect

/-- The operands of an infix operator are predicates. -/
theorem Grammar.childKinds_of_sqlOperator {kind : Kind} (h : kind.sqlOperator.isSome = true) :
    flatSelect.childKinds kind 0 = .predicates ∧ flatSelect.childKinds kind 1 = .predicates := by
  cases kind <;> first | exact ⟨rfl, rfl⟩ | cases h

namespace Subtree

variable {s : Subtree} {kind : Kind} {expected next : KindSet}

namespace Stands

theorem toExpr_of_constant (h : s.Stands expected) (hkind : s.kind = .constant) :
    ∃ value, s.toExpr = .constant value := by
  obtain ⟨value, hvalue⟩ := Option.isSome_iff_exists.mp (h.regular.proper.value_iff.mpr hkind)
  have hslots := h.regular.slots_of_constant hkind
  obtain ⟨id, _, _, _⟩ := s
  obtain rfl := hkind
  obtain rfl := hvalue
  obtain rfl := hslots
  exact ⟨value, rfl⟩

theorem toExpr_of_slots {slots : List (Option Subtree)} (h : s.Stands expected)
    (hkind : s.kind ≠ .constant) (hslots : s.slots = slots) :
    s.toExpr = .op s.kind (toExprs slots) := by
  have hvalue := h.regular.value_of_ne_constant hkind
  obtain ⟨id, _, _, _⟩ := s
  obtain rfl := hvalue
  obtain rfl := hslots
  rfl

theorem exists_slot (h : s.Stands expected) (harity : s.kind.arity = 1) :
    ∃ child, s.slots = [some child] ∧
      child.Stands (Grammar.flatSelect.childKinds s.kind 0) := by
  obtain ⟨c, hslots, hregular⟩ := h.regular.exists_slot harity
  exact ⟨c, hslots, hregular, deviation?_child h.conforms (by simp [child, hslots])⟩

/-- A node with a parameter and an operand, as an expression. -/
theorem exists_parameter (h : s.Stands expected) (harity : s.kind.arity = 2)
    (hconstant : Grammar.flatSelect.childKinds s.kind 0 = .constants) :
    ∃ parameter first below, s.slots = [some first, some below] ∧
      s.toExpr = .op s.kind [.constant parameter, below.toExpr] ∧
      below.Stands (Grammar.flatSelect.childKinds s.kind 1) := by
  obtain ⟨first, below, hslots, hfirst, hbelow⟩ := h.exists_slots harity
  rw [hconstant] at hfirst
  obtain ⟨parameter, hparameter⟩ := hfirst.toExpr_of_constant hfirst.constant_of_constants
  have hkind : s.kind ≠ .constant := by
    intro hkind
    rw [hkind] at harity
    cases harity
  refine ⟨parameter, first, below, hslots, ?_, hbelow⟩
  rw [h.toExpr_of_slots hkind hslots, toExprs, toExprs, toExprs, hparameter]

theorem toExpr_of_input1 (h : s.Stands expected) (hkind : s.kind = .input1) :
    ∃ relation, s.toExpr = .op .input1 [.constant relation] := by
  obtain ⟨name, hslots, hname⟩ := h.exists_slot (by rw [hkind]; rfl)
  rw [hkind] at hname
  obtain ⟨relation, hrelation⟩ := hname.toExpr_of_constant (constant_of_constants hname)
  exact ⟨relation, by
    rw [h.toExpr_of_slots (by simp [hkind]) hslots, hkind, toExprs, toExprs, hrelation]⟩

theorem isPredicate : ∀ {s : Subtree}, s.Stands .predicates → s.toExpr.IsPredicate
  | .node id kind value slots, h => by
    -- Below an operator of a predicate the grammar wants predicates again.
    by_cases hleaf : kind = .constant
    · obtain ⟨v, hv⟩ := h.toExpr_of_constant hleaf
      rw [hv]
      exact .leaf v
    · by_cases hnot : kind = .not
      · subst hnot
        obtain ⟨operand, hslots, hoperand⟩ := h.exists_slot rfl
        rw [h.toExpr_of_slots hleaf hslots]
        obtain rfl : slots = [some operand] := hslots
        exact .not (isPredicate hoperand)
      · obtain ⟨harity, operator, hoperator⟩ := exists_sqlOperator h.contains hleaf hnot
        obtain ⟨left, right, hslots, hleft, hright⟩ := h.exists_slots harity
        rw [h.toExpr_of_slots hleaf hslots]
        obtain rfl : slots = [some left, some right] := hslots
        have infixed : kind.sqlOperator.isSome = true := Option.isSome_of_eq_some hoperator
        obtain ⟨hfirst, hsecond⟩ := Grammar.childKinds_of_sqlOperator infixed
        exact .binary infixed (isPredicate (hfirst ▸ hleft)) (isPredicate (hsecond ▸ hright))

theorem isRelation (h : s.Stands (.ofList [.constant, .input1])) : s.toExpr.IsRelation := by
  rcases h.constant_or_input1 with hkind | hkind
  · obtain ⟨value, hvalue⟩ := h.toExpr_of_constant hkind
    rw [hvalue]
    exact .leaf value
  · obtain ⟨relation, hrelation⟩ := h.toExpr_of_input1 hkind
    rw [hrelation]
    exact .stored relation

theorem isBranch (h : s.Stands Grammar.branches) : s.toExpr.IsBranch := by
  have hcontains : s.kind = .renameAll ∨ s.kind = .constant := by
    simpa [Grammar.branches] using h.contains
  rcases hcontains with hkind | hkind
  · obtain ⟨asName, _, relation, _, hexpr, hrelation⟩ :=
      h.exists_parameter (by rw [hkind]; rfl) (by rw [hkind]; rfl)
    rw [hkind] at hexpr hrelation
    rw [hexpr]
    exact .aliased asName (isRelation hrelation)
  · obtain ⟨value, hvalue⟩ := h.toExpr_of_constant hkind
    rw [hvalue]
    exact .leaf value

theorem isSource (h : s.Stands .inputs) : s.toExpr.IsSource := by
  have hcontains : s.kind = .input1 ∨ s.kind = .input2 := by
    simpa [KindSet.inputs] using h.contains
  rcases hcontains with hkind | hkind
  · obtain ⟨relation, hrelation⟩ := h.toExpr_of_input1 hkind
    rw [hrelation]
    exact .stored relation
  · obtain ⟨left, right, hslots, hleft, hright⟩ := h.exists_slots (by rw [hkind]; rfl)
    rw [h.toExpr_of_slots (by simp [hkind]) hslots]
    rw [hkind] at hleft hright ⊢
    exact .joined (isBranch hleft) (isBranch hright)

/-- The condition that there may be, and where the rows come from. -/
theorem exists_filtered (h : s.Stands Grammar.belowProjection) :
    ∃ predicate source, (∀ p ∈ predicate, p.IsPredicate) ∧ source.IsSource ∧
      s.toExpr = .filtered predicate source := by
  by_cases hkind : s.kind = .condition
  · obtain ⟨p, below, hslots, hp, hbelow⟩ := h.exists_slots (by rw [hkind]; rfl)
    rw [hkind] at hp hbelow
    refine ⟨some p.toExpr, below.toExpr, ?_, isSource hbelow, ?_⟩
    · rintro _ ⟨⟩
      exact isPredicate hp
    · rw [h.toExpr_of_slots (by simp [hkind]) hslots, hkind]
      rfl
  · have hinputs : s.Stands .inputs := by
      refine h.narrow ?_
      simpa [Grammar.belowProjection, hkind] using h.contains
    exact ⟨none, s.toExpr, by simp, hinputs.isSource, rfl⟩

/-- Taking the operators of one kind off a stack leaves what may stand below them. -/
theorem exists_stacked (kind : Kind) (next : KindSet)
    (hconstant : Grammar.flatSelect.childKinds kind 0 = .constants)
    (harity : kind.arity = 2)
    (hstays : ∀ k, (Grammar.flatSelect.childKinds kind 1).contains k = true →
      expected.contains k = true)
    (hnext : ∀ k, expected.contains k = true → k ≠ kind → next.contains k = true) :
    ∀ {s : Subtree}, s.Stands expected → ∃ (parameters : List Value) (below : Subtree),
      s.toExpr = .stacked kind parameters below.toExpr ∧ below.Stands next
  | .node id top value slots, h => by
    by_cases htop : kind = top
    · subst htop
      obtain ⟨parameter, first, operand, hslots, hexpr, hoperand⟩ :=
        h.exists_parameter harity hconstant
      obtain rfl : slots = [some first, some operand] := hslots
      obtain ⟨rest, below, hrest, hbelow⟩ := exists_stacked kind next hconstant harity hstays
        hnext (hoperand.narrow (hstays _ hoperand.contains))
      exact ⟨parameter :: rest, below, by rw [hexpr, hrest]; rfl, hbelow⟩
    · exact ⟨[], _, rfl, h.narrow (hnext top h.contains (Ne.symm htop))⟩

/-- The projection that there may be. -/
theorem exists_projection (h : s.Stands (.ofList [.projection, .condition] ∪ .inputs)) :
    ∃ (projection : Option Value) (below : Subtree),
      s.toExpr = .stacked .projection projection.toList below.toExpr ∧
        below.Stands Grammar.belowProjection := by
  by_cases hkind : s.kind = .projection
  · obtain ⟨entries, _, below, _, hexpr, hbelow⟩ :=
      h.exists_parameter (by rw [hkind]; rfl) (by rw [hkind]; rfl)
    rw [hkind] at hexpr hbelow
    exact ⟨some entries, below, hexpr, hbelow⟩
  · refine ⟨none, s, rfl, h.narrow ?_⟩
    simpa [Grammar.belowProjection, hkind] using h.contains

theorem isFlatSelect (h : s.Stands queryRoots) : s.toExpr.IsFlatSelect := by
  have hkind : s.kind = .assign := by simpa using h.contains
  obtain ⟨target, _, body, _, hexpr, hbody⟩ :=
    h.exists_parameter (by rw [hkind]; rfl) (by rw [hkind]; rfl)
  rw [hkind] at hexpr hbody
  -- What may stand below each clause is what the next one is taken off.
  obtain ⟨renames, body₁, hrenames, hbody₁⟩ :=
    exists_stacked .rename Grammar.belowDerived rfl rfl (fun k => by cases k <;> decide)
      (fun k => by cases k <;> decide) (show body.Stands Grammar.stack from hbody)
  obtain ⟨derived, body₂, hderived, hbody₂⟩ :=
    exists_stacked .extraColumn (.ofList [.projection, .condition] ∪ .inputs) rfl rfl
      (fun k => by cases k <;> decide) (fun k => by cases k <;> decide) hbody₁
  obtain ⟨projection, body₃, hprojection, hbody₃⟩ := hbody₂.exists_projection
  obtain ⟨predicate, source, hpredicate, hsource, hfiltered⟩ := hbody₃.exists_filtered
  exact ⟨target, renames, derived, projection, predicate, source, hpredicate, hsource, by
    rw [hexpr, hrenames, hderived, hprojection, hfiltered]⟩

end Stands

end Subtree

namespace Tree

/-- The tree of an expression conforms to the grammar exactly if the expression is a flat select:
an assignment of any number of renames, upon any number of derived columns, upon at most one
projection, upon at most one condition, upon a stored relation or a join. -/
theorem conforms_iff_isFlatSelect {e : Expr} {t : Tree} (h : ofExpr e = .ok t) :
    t.conforms .flatSelect queryRoots = true ↔ e.IsFlatSelect := by
  have hregular : e.bare.Regular .strict := Expr.regular_of_check (ofExpr_eq_ok.mp h).1
  rw [conforms, Option.isNone_iff_eq_none, (bears_of_ofExpr h).deviation?_eq_none_iff]
  constructor
  · intro hconforms
    have hstands : e.bare.Stands queryRoots := ⟨hregular, hconforms⟩
    exact e.toExpr_bare ▸ hstands.isFlatSelect
  · exact Expr.IsFlatSelect.fits

/-- A join with a condition whose predicate compares a list of columns is a flat select, and a
projection upon a projection is none. -/
theorem conforms_iff_isFlatSelect_join :
    let joined := Expr.assign "T" <| .rename "d" "b" <| .projection ["A.x", "b"] <|
      .condition (.not (.op .equals [.name "a", .constant (.columns ["b"])])) <|
        .input2 (.branch "A" "r") (.name "s")
    let nested := Expr.assign "T" <| .projection ["a"] <| .projection ["a", "b"] <| .input1 "t"
    (∃ t, ofExpr joined = .ok t ∧ t.conforms .flatSelect queryRoots = true ∧
      joined.IsFlatSelect) ∧
    ∃ t, ofExpr nested = .ok t ∧ t.conforms .flatSelect queryRoots = false ∧
      ¬ nested.IsFlatSelect := by
  intro joined nested
  have hjoined : ofExpr joined = .ok (planted joined) := ofExpr_eq_ok.mpr ⟨rfl, rfl⟩
  have hconforms : (planted joined).conforms .flatSelect queryRoots = true := by decide +kernel
  have hnested : ofExpr nested = .ok (planted nested) := ofExpr_eq_ok.mpr ⟨rfl, rfl⟩
  have hdeviates : (planted nested).conforms .flatSelect queryRoots = false := by decide +kernel
  refine ⟨⟨_, hjoined, hconforms, (conforms_iff_isFlatSelect hjoined).mp hconforms⟩,
    _, hnested, hdeviates, ?_⟩
  rw [← conforms_iff_isFlatSelect hnested, hdeviates]
  decide

end Tree

end FlatSelect
