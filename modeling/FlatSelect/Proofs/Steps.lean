import FlatSelect.Proofs.Regular

/-!
# A lift, step by step

An operator that is lifted changes places with one parent after the other until it lands, or until a
parent absorbs it. So what is kept when it changes places with a parent is kept by the whole lift,
and what an absorption makes of that is what comes of a lift that ends in one
(`Subtree.Keeps.of_lift`).
-/

namespace FlatSelect

/-- One thing holds if a lift has ended in absorption, and another if it has not. -/
def Lift.Outcome.Ends (kept absorbed : Prop) : Lift.Outcome → Prop
  | .absorbed _ => absorbed
  | _ => kept

namespace Subtree

/-- An operator that has been carried to the foot of a path in a regular whole is forbidden there,
and a transfer takes it past its parent. The operator is what is in `d`, the parent is what is in
`f`, and `below` is what the operator stands on. -/
structure Meets (c : Contract) (g : Grammar) (fresh : NodeId) (d f : Frame) (above : Path)
    (below : Subtree) (rule : Transfer) (crossed : Crossed) : Prop where
  slot_eq : d.slot = 1
  hasOperand : d.kind.hasOperand = true
  forbidden : g.allows f.kind f.slot d.kind = false
  rule_eq : Transfer.between? d.kind f.kind = some rule
  cross_eq : rule.cross fresh (d.fill none) (f.fill (some below)) f.slot = .ok crossed
  regular : (Path.fill (f :: above) (d.fill (some below))).Regular c

/-- Whenever an operator of some kind crosses a parent on a path, `kept` is kept. When a parent
absorbs it, `absorbed` comes of that. -/
structure Keeps (c : Contract) (g : Grammar) (fresh : NodeId) (kind : Kind) (path : Path)
    (kept absorbed : Subtree → Prop) : Prop where
  rises {d f : Frame} {above : Path} {below node' parent' : Subtree} {rule : Transfer}
    (hkind : d.kind = kind) (hpath : (f :: above) <:+ path)
    (h : Meets c g fresh d f above below rule (.rises node' parent'))
    (hkept : kept (Path.fill (f :: above) (d.fill (some below)))) : kept (hung node' parent' above)
  absorbs {d f : Frame} {above : Path} {below parent' : Subtree} {rule : Transfer}
    (hkind : d.kind = kind) (hpath : (f :: above) <:+ path)
    (h : Meets c g fresh d f above below rule (.absorbed parent'))
    (hkept : kept (Path.fill (f :: above) (d.fill (some below)))) :
    absorbed (Path.fill above parent')

variable {c : Contract} {g : Grammar} {fresh : NodeId} {d f : Frame} {above path : Path}
  {below node node' parent' whole : Subtree} {rule : Transfer} {outcome : Lift.Outcome}
  {steps : Nat} {kind : Kind} {kept absorbed : Subtree → Prop}

/-- In a regular operator, what stands beside the operand. -/
theorem Regular.exists_parameter (h : (d.fill (some below)).Regular c) (hd : d.slot = 1)
    (hkind : d.kind.hasOperand = true) :
    ∃ first, d.before = [some first] ∧ d.after = [] ∧ first.Regular c ∧
      (d.kind ≠ .condition → first.kind = .constant) := by
  obtain ⟨first, second, hslots, hfirst, _, hconstant⟩ :=
    h.exists_slots (Kind.arity_of_hasOperand hkind)
  obtain ⟨id, kind, value, before, after⟩ := d
  match before, hd with
  | [hole], _ =>
      have hslots : hole :: some below :: after = [some first, some second] := hslots
      simp only [List.cons.injEq, Option.some.injEq] at hslots
      obtain ⟨rfl, rfl, rfl⟩ := hslots
      exact ⟨first, rfl, rfl, hfirst, fun hne =>
        hconstant (Kind.hasParameter_of_hasOperand hkind hne)⟩

namespace Meets

variable {crossed : Crossed}

theorem comes (h : Meets c g fresh d f above below rule crossed) :
    rule.Comes fresh (d.fill none) (f.fill (some below)) crossed :=
  Transfer.comes_of_cross h.cross_eq

/-- The parent with the operator on what it stands on. -/
theorem regular_before (h : Meets c g fresh d f above below rule crossed) :
    (f.fill (some (d.fill (some below)))).Regular c :=
  @Regular.foot c _ above h.regular

theorem regular_operator (h : Meets c g fresh d f above below rule crossed) :
    (d.fill (some below)).Regular c :=
  (Frame.regular_fill.mp h.regular_before).2.2

/-- The parent without the operator. -/
theorem regular_parent (h : Meets c g fresh d f above below rule crossed) :
    (f.fill (some below)).Regular c :=
  h.regular_before.spliceOut (Kind.ne_constant_of_hasOperand h.hasOperand)

/-- Operator and parent are reworded where the operator rises. -/
theorem reworded (h : Meets c g fresh d f above below rule (.rises node' parent')) :
    (d.fill none).Reworded node' ∧ (f.fill (some below)).Reworded parent' := by
  cases h.comes with
  | rises hnode hparent => exact ⟨hnode, hparent⟩

/-- What becomes of a parent that absorbs the operator is regular, and an operator itself. -/
theorem regular_absorbed (h : Meets c g fresh d f above below rule (.absorbed parent')) :
    parent'.Regular c ∧ parent'.kind = f.kind ∧ f.kind ≠ .constant := by
  obtain ⟨hf, _, _⟩ := Frame.regular_fill.mp h.regular_before
  exact ⟨h.regular_before.of_absorbed (Kind.ne_constant_of_hasOperand h.hasOperand) h.rule_eq
    h.comes, h.comes.operand_eq.1, Frame.kind_ne_constant hf.length_eq⟩

/-- Once it has crossed, the operator is in a frame again, and the whole is regular. -/
theorem exists_frame (h : Meets c g fresh d f above below rule (.rises node' parent')) :
    ∃ d' : Frame, d'.fill none = node' ∧ d'.slot = 1 ∧ d'.kind = d.kind ∧
      (Path.fill above (d'.fill (some parent'))).Regular c := by
  obtain ⟨hnode, hparent⟩ := h.reworded
  obtain ⟨d', rfl, hd', hkind'⟩ := hnode.exists_frame h.slot_eq
  refine ⟨d', rfl, hd', hkind', ?_⟩
  rw [← hung_fill_none hd']
  refine Regular.of_rises h.slot_eq (Kind.ne_constant_of_hasOperand h.hasOperand) ?_ hnode hparent
  rw [hung_fill_none h.slot_eq]
  exact h.regular

end Meets

theorem Keeps.suffix {path' : Path} (h : Keeps c g fresh kind path kept absorbed)
    (hpath : path' <:+ path) : Keeps c g fresh kind path' kept absorbed where
  rises hkind hp := h.rises hkind (hp.trans hpath)
  absorbs hkind hp := h.absorbs hkind (hp.trans hpath)

theorem Keeps.of_rises (hkeeps : Keeps c g fresh kind path kept absorbed)
    (h : Rises g fresh node below steps path outcome whole) (hd : d.slot = 1)
    (hnode : d.fill none = node) (hkind : d.kind = kind) (hoperand : kind.hasOperand = true)
    (hreg : (path.fill (d.fill (some below))).Regular c)
    (hkept : kept (path.fill (d.fill (some below)))) :
    outcome.Ends (kept whole) (absorbed whole) := by
  subst hkind
  induction h generalizing d with
  | lands =>
      subst hnode
      rw [← hd, setChild_fill]
      exact hkept
  | @crosses node below node' parent' whole steps f above rule outcome hallows hrule hcross _ ih =>
      subst hnode
      have hmeets : Meets c g fresh d f above below rule (.rises node' parent') :=
        ⟨hd, hoperand, hallows, hrule, hcross, hreg⟩
      obtain ⟨d', rfl, hd', hkind', hreg'⟩ := hmeets.exists_frame
      have hnext := hkeeps.rises rfl List.suffix_rfl hmeets hkept
      rw [hung_fill_none hd'] at hnext
      have habove := hkeeps.suffix (List.suffix_cons f above)
      rw [← hkind'] at habove hoperand
      exact ih hd' rfl hreg' hnext habove hoperand
  | @absorbed node below parent' steps f above rule hallows hrule hcross =>
      subst hnode
      exact hkeeps.absorbs rfl List.suffix_rfl ⟨hd, hoperand, hallows, hrule, hcross, hreg⟩ hkept

/-- What every crossing keeps is kept by a lift, as far as it does not end in absorption. -/
theorem Keeps.of_lift (hkeeps : Keeps c g fresh node.kind path kept absorbed)
    (hlift : node.lift g fresh path = .ok (outcome, whole)) (hreg : (path.fill node).Regular c)
    (hkept : kept (path.fill node)) : outcome.Ends (kept whole) (absorbed whole) := by
  cases path with
  | nil => cases hlift
  | cons f above =>
      cases hallows : g.allows f.kind f.slot node.kind with
      | true =>
          rw [lift, hallows, if_pos rfl] at hlift
          cases hlift
          exact hkept
      | false =>
          obtain ⟨d, operand, rfl, hd, hoperand, hrises⟩ := exists_rises_of_lift hallows hlift
          exact hkeeps.of_rises hrises hd rfl rfl hoperand hreg hkept

/-- What every crossing keeps, absorptions among them, is kept by every lift. -/
theorem Keeps.whole_of_lift (hkeeps : Keeps c g fresh node.kind path kept kept)
    (hlift : node.lift g fresh path = .ok (outcome, whole)) (hreg : (path.fill node).Regular c)
    (hkept : kept (path.fill node)) : kept whole := by
  have hends := hkeeps.of_lift hlift hreg hkept
  cases outcome <;> exact hends

end Subtree

end FlatSelect
