import FlatSelect.Proofs.Intact

/-!
# What normalization can fail with

A transfer reads the parameters of the two nodes and the predicate of a condition. In a regular
subtree whose parameters have the form that their nodes read, all of that is there, so a transfer
fails only if a condition reads the column that would be derived above it, and lifting fails only
for an obstacle: the node is the root, or no rule leads on (`Subtree.Regular.obstacle_of_lift`).

So a normalization of a tree that has come of an expression never finds the tree malformed and
never comes upon a state that ought not to be (`Tree.Reached.fails_of_obstacle`).
-/

namespace FlatSelect

namespace Subtree

/-- What a transfer reads of a node is there: its parameter, or its predicate. -/
structure Readable (s : Subtree) : Prop where
  parameter : s.kind.hasParameter = true → ∃ v, s.slotValue 0 = some v ∧ s.kind.admits v = true
  predicate : s.kind = .condition → ∃ top, s.predicate = .ok top

variable {s below node whole : Subtree} {path : Path} {d f : Frame}

theorem Regular.readable (h : s.Regular .strict) : s.Readable := by
  refine ⟨h.proper.parameter, fun hkind => ?_⟩
  obtain ⟨top, _, hslots, _⟩ := h.exists_slots (by rw [hkind]; rfl)
  exact ⟨top, by simp [Subtree.predicate, Subtree.child, hslots]⟩

/-- A transfer reads nothing of the operand. -/
theorem Readable.fill_none (hd : d.slot = 1) (h : (d.fill (some s)).Readable) :
    (d.fill none).Readable := by
  have hchild : (d.fill (some s)).child 0 = (d.fill none).child 0 :=
    Frame.child_fill_of_ne _ (by omega)
  obtain ⟨hparameter, hpredicate⟩ := h
  rw [Subtree.slotValue, hchild] at hparameter
  rw [Subtree.predicate, hchild] at hpredicate
  exact ⟨hparameter, hpredicate⟩

namespace Readable

theorem exists_renamePair (h : s.Readable) (hkind : s.kind = .rename) :
    ∃ pair, s.renamePair = .ok pair := by
  obtain ⟨v, hv, hadmits⟩ := h.parameter (by rw [hkind]; rfl)
  rw [hkind] at hadmits
  cases v with
  | rename new old => exact ⟨(new, old), by rw [Subtree.renamePair, hv]⟩
  | name | columns | derived => cases hadmits

theorem exists_derivedColumn (h : s.Readable) (hkind : s.kind = .extraColumn) :
    ∃ column, s.derivedColumn = .ok column := by
  obtain ⟨v, hv, hadmits⟩ := h.parameter (by rw [hkind]; rfl)
  rw [hkind] at hadmits
  cases v with
  | derived asName source => exact ⟨(asName, source), by rw [Subtree.derivedColumn, hv]⟩
  | name | columns | rename => cases hadmits

theorem exists_columns (h : s.Readable) (hkind : s.kind = .projection) :
    ∃ entries, s.columns = .ok entries := by
  obtain ⟨v, hv, hadmits⟩ := h.parameter (by rw [hkind]; rfl)
  rw [hkind] at hadmits
  cases v with
  | columns entries => exact ⟨entries, by rw [Subtree.columns, hv]⟩
  | name | rename | derived => cases hadmits

theorem exists_branchAlias (h : s.Readable) (hkind : s.kind = .renameAll) :
    ∃ asName, s.branchAlias = .ok asName := by
  obtain ⟨v, hv, hadmits⟩ := h.parameter (by rw [hkind]; rfl)
  rw [hkind] at hadmits
  cases v with
  | name asName =>
      refine ⟨asName, ?_⟩
      rw [Subtree.branchAlias, Subtree.branchAlias?, hkind]
      simp only [hv, Option.bind_some, Value.asName?]
  | columns | rename | derived => cases hadmits

end Readable

/-- A transfer that is used where the table says so finds what it reads. It fails for one reason:
a condition reads the column that would be derived above it. -/
theorem columnRead_of_cross {fresh : NodeId} {parent : Subtree} {slot : Nat} {rule : Transfer}
    {cause : Error} (hnode : node.Readable) (hparent : parent.Readable)
    (hrule : Transfer.between? node.kind parent.kind = some rule)
    (h : rule.cross fresh node parent slot = .error cause) :
    ∃ asName, cause = .nonCanonicalizable (.columnRead asName) := by
  have hkinds := Transfer.mem_table_of_between? hrule
  simp only [Transfer.table, List.mem_cons, Prod.mk.injEq, List.not_mem_nil, or_false] at hkinds
  cases rule with
  | pass => cases h
  | qualifyRename =>
      obtain ⟨hn, hp⟩ : node.kind = .rename ∧ parent.kind = .renameAll := by simpa using hkinds
      obtain ⟨asName, halias⟩ := hparent.exists_branchAlias hp
      obtain ⟨pair, hpair⟩ := hnode.exists_renamePair hn
      rw [Transfer.cross, halias, hpair] at h
      cases h
  | qualifyProjection =>
      obtain ⟨hn, hp⟩ : node.kind = .projection ∧ parent.kind = .renameAll := by simpa using hkinds
      obtain ⟨asName, halias⟩ := hparent.exists_branchAlias hp
      obtain ⟨entries, hentries⟩ := hnode.exists_columns hn
      rw [Transfer.cross, halias, hentries] at h
      cases h
  | qualifyCondition =>
      obtain ⟨hn, hp⟩ : node.kind = .condition ∧ parent.kind = .renameAll := by simpa using hkinds
      obtain ⟨asName, halias⟩ := hparent.exists_branchAlias hp
      obtain ⟨top, htop⟩ := hnode.predicate hn
      rw [Transfer.cross, halias, htop] at h
      cases h
  | renameInCondition =>
      obtain ⟨hn, hp⟩ : node.kind = .rename ∧ parent.kind = .condition := by simpa using hkinds
      obtain ⟨pair, hpair⟩ := hnode.exists_renamePair hn
      obtain ⟨top, htop⟩ := hparent.predicate hp
      rw [Transfer.cross, hpair, htop] at h
      cases h
  | renameInProjection =>
      obtain ⟨hn, hp⟩ : node.kind = .rename ∧ parent.kind = .projection := by simpa using hkinds
      obtain ⟨⟨new, old⟩, hpair⟩ := hnode.exists_renamePair hn
      obtain ⟨entries, hentries⟩ := hparent.exists_columns hp
      rw [Transfer.cross_renameInProjection hpair hentries] at h
      cases h
  | renameInSource =>
      obtain ⟨hn, hp⟩ : node.kind = .rename ∧ parent.kind = .extraColumn := by simpa using hkinds
      obtain ⟨pair, hpair⟩ := hnode.exists_renamePair hn
      obtain ⟨column, hcolumn⟩ := hparent.exists_derivedColumn hp
      rw [Transfer.cross, hpair, hcolumn] at h
      cases h
  | deriveOverProjection =>
      obtain ⟨hn, hp⟩ : node.kind = .extraColumn ∧ parent.kind = .projection := by
        simpa using hkinds
      obtain ⟨column, hcolumn⟩ := hnode.exists_derivedColumn hn
      obtain ⟨entries, hentries⟩ := hparent.exists_columns hp
      rw [Transfer.cross, hcolumn, hentries] at h
      cases h
  | deriveOverCondition =>
      obtain ⟨hn, hp⟩ : node.kind = .extraColumn ∧ parent.kind = .condition := by
        simpa using hkinds
      obtain ⟨⟨asName, source⟩, hcolumn⟩ := hnode.exists_derivedColumn hn
      obtain ⟨top, htop⟩ := hparent.predicate hp
      simp only [Transfer.cross, hcolumn, htop, bind, Except.bind] at h
      split at h <;> cases h
      exact ⟨asName, rfl⟩
  | widenProjection =>
      have hn : node.kind = .projection := by
        simp only [and_true, reduceCtorEq, and_false, false_or, or_false] at hkinds
        exact hkinds.elim And.left And.left
      obtain ⟨entries, hentries⟩ := hnode.exists_columns hn
      rw [Transfer.cross, hentries] at h
      cases h
  | mergeProjections =>
      obtain ⟨hn, hp⟩ : node.kind = .projection ∧ parent.kind = .projection := by
        simpa using hkinds
      obtain ⟨inner, hinner⟩ := hnode.exists_columns hn
      obtain ⟨outer, houter⟩ := hparent.exists_columns hp
      rw [Transfer.cross, hinner, houter] at h
      cases h
  | conjoinConditions =>
      obtain ⟨hn, hp⟩ : node.kind = .condition ∧ parent.kind = .condition := by simpa using hkinds
      obtain ⟨outer, houter⟩ := hparent.predicate hp
      obtain ⟨inner, hinner⟩ := hnode.predicate hn
      rw [Transfer.cross, houter, hinner] at h
      cases h

variable {g : Grammar} {fresh : NodeId} {cause : Error}

/-- An operator that is carried up a regular whole can only come to where no way leads on. -/
theorem obstacle_of_rise {steps : Nat} (hd : d.slot = 1) (hkind : d.kind.hasOperand = true)
    (hreg : (hung (d.fill none) below path).Regular .strict)
    (h : (d.fill none).rise g fresh below steps path = .error cause) :
    ∃ obstacle, cause = .nonCanonicalizable obstacle := by
  induction path generalizing d below steps with
  | nil =>
      cases h
      exact ⟨_, rfl⟩
  | cons f above ih =>
      have hconstant := Kind.ne_constant_of_hasOperand hkind
      cases hallows : g.allows f.kind f.slot (d.fill none).kind with
      | true =>
          rw [rise_lands hallows] at h
          cases h
      | false =>
          cases hrule : Transfer.between? (d.fill none).kind f.kind with
          | none =>
              rw [rise_no_rule hallows hrule] at h
              cases h
              exact ⟨_, rfl⟩
          | some rule =>
              cases hcross : rule.cross fresh (d.fill none) (f.fill (some below)) f.slot with
              | error =>
                  rw [rise_fails hallows hrule hcross] at h
                  cases h
                  rw [hung_fill_none hd, Path.fill_cons] at hreg
                  have hparent : (f.fill (some (d.fill (some below)))).Regular .strict := hreg.foot
                  have hnode := (Frame.regular_fill.mp hparent).2.2
                  obtain ⟨asName, rfl⟩ := columnRead_of_cross (hnode.readable.fill_none hd)
                    (hparent.spliceOut hconstant).readable hrule hcross
                  exact ⟨_, rfl⟩
              | ok crossed =>
                  cases Transfer.comes_of_cross hcross with
                  | rises hnode hparent _ _ =>
                      rw [rise_rises _ _ _ hallows hrule hcross] at h
                      obtain ⟨d', rfl, hd', hkind'⟩ := hnode.exists_frame hd
                      exact ih hd' (hkind' ▸ hkind) (hreg.of_rises hd hconstant hnode hparent) h
                  | absorbed | conjoined =>
                      rw [rise_absorbed hallows hrule hcross] at h
                      cases h

/-- Lifting a node of a regular whole can only fail for an obstacle. -/
theorem Regular.obstacle_of_lift (h : (path.fill node).Regular .strict)
    (hlift : node.lift g fresh path = .error cause) :
    ∃ obstacle, cause = .nonCanonicalizable obstacle := by
  cases path with
  | nil =>
      cases hlift
      exact ⟨_, rfl⟩
  | cons f above =>
      rw [lift] at hlift
      split at hlift
      case isTrue => cases hlift
      split at hlift
      case isFalse =>
        cases hlift
        exact ⟨_, rfl⟩
      case isTrue hkind =>
        have hnode : node.Regular .strict := h.foot
        obtain ⟨_, operand, hslots, _⟩ := hnode.exists_slots (Kind.arity_of_hasOperand hkind)
        have hoperand : node.child 1 = some operand := by
          simp [Subtree.child, hslots]
        obtain ⟨d, rfl, hd⟩ := exists_frame hoperand
        rw [hoperand] at hlift
        dsimp only at hlift
        rw [← hd, setChild_fill] at hlift
        rw [← hung_fill_none hd] at h
        exact obstacle_of_rise hd hkind h hlift

end Subtree

namespace Tree

variable {t left : Tree} {g : Grammar} {roots : KindSet} {node : NodeId} {cause : Error}

theorem Intact.obstacle_of_lift (h : t.Intact .strict)
    (hlift : Edit.lift g node t = .error cause left) :
    ∃ obstacle, cause = .nonCanonicalizable obstacle := by
  rcases h.path_or_idle node with ⟨path, s, graves, rfl, hholds, hreg, _⟩ | hidle
  · have hsim := hholds.lift (g := g)
    cases hs : s.lift g t.nodes.size path with
    | error =>
        rw [hs, hlift] at hsim
        cases hsim
        exact hreg.obstacle_of_lift hs
    | ok =>
        rw [hs, hlift] at hsim
        obtain ⟨_, _, hok, _⟩ := hsim
        cases hok
  · rcases Edit.lift_of_idle g hidle with hsame | ⟨obstacle, herror⟩
    · rw [hsame] at hlift
      cases hlift
    · rw [herror] at hlift
      cases hlift
      exact ⟨obstacle, rfl⟩

/-- Lifting first deviations gets stuck at an obstacle. -/
theorem Intact.obstacle_of_settles {outcomes : List Lift.Outcome} (h : t.Intact .strict)
    (hsettles : Edit.Settles g roots t outcomes (.stuck cause)) :
    ∃ obstacle, cause = .nonCanonicalizable obstacle := by
  generalize hending : Edit.Ending.stuck cause = ending at hsettles
  induction hsettles with
  | canonical => cases hending
  | stuck _ hlift =>
      cases hending
      exact h.obstacle_of_lift hlift
  | lift _ hlift _ ih => exact ih (h.lift hlift) hending

/-- A normalization fails because of an obstacle, be it that the budget is spent. -/
theorem Intact.obstacle_of_normalize {budget : Nat} (h : t.Intact .strict)
    (hrun : Edit.normalize g roots budget t = .error cause left) :
    ∃ obstacle, cause = .nonCanonicalizable obstacle := by
  obtain ⟨s, graves, hholds, _⟩ := id h
  obtain ⟨outcomes, ending, hsettles, hends⟩ :=
    Edit.exists_settles_of_normalize_error hholds.represents hrun
  rcases hends with ⟨rfl, _⟩ | ⟨rfl, _⟩
  · exact h.obstacle_of_settles hsettles
  · exact ⟨_, rfl⟩

/-- In a tree that has come of an expression, lifting a node can only fail for an obstacle, the
first deviation is never found to be legal, and so a normalization can only fail for an obstacle. -/
theorem Reached.fails_of_obstacle (h : Reached .strict t) (g : Grammar) :
    (∀ node cause left, Edit.lift g node t = .error cause left →
      ∃ obstacle, cause = .nonCanonicalizable obstacle) ∧
    ∀ roots,
      (∀ node t', t.deviation? g roots = some node →
        Edit.lift g node t ≠ .ok .alreadyLegal t') ∧
      ∀ budget cause left, Edit.normalize g roots budget t = .error cause left →
        ∃ obstacle, cause = .nonCanonicalizable obstacle := by
  refine ⟨fun node cause left hlift => h.intact.obstacle_of_lift hlift, fun roots => ⟨?_, ?_⟩⟩
  · intro node t' hdeviation hlift
    obtain ⟨s, graves, hholds, _⟩ := h.intact
    exact (hholds.represents.lifts_of_deviation hdeviation hlift).2 rfl
  · intro budget cause left hrun
    exact h.intact.obstacle_of_normalize hrun

/-- A view that is a join makes a join in a join, which is refused as such. -/
theorem Reached.fails_of_obstacle_join :
    let view := Expr.assign "v" (.input2 (.name "r") (.name "s"))
    let target := Expr.assign "T" (.input2 (.name "v") (.name "u"))
    ∃ v t cause, ofExpr view = .ok v ∧ ofExpr target = .ok t ∧
      Edit.normalize .flatSelect (.ofList [.assign]) 1 ((Edit.inline v).left t) =
        .error cause ((Edit.inline v).left t) ∧
      ∃ obstacle, cause = .nonCanonicalizable obstacle := by
  intro view target
  let v := planted view
  let t := planted target
  have hview : ofExpr view = .ok v := ofExpr_eq_ok.mpr ⟨rfl, rfl⟩
  have htarget : ofExpr target = .ok t := ofExpr_eq_ok.mpr ⟨rfl, rfl⟩
  have hfails : (match Edit.normalize .flatSelect (.ofList [.assign]) 1
        ((Edit.inline v).left t) with
      | .error _ _ => true
      | .ok _ _ => false) = true := by decide +kernel
  cases hrun : Edit.normalize .flatSelect (.ofList [.assign]) 1 ((Edit.inline v).left t) with
  | ok => simp [hrun] at hfails
  | error cause left =>
      have hreached : Reached .strict ((Edit.inline v).left t) :=
        .inline (.built hview) (.built htarget)
      refine ⟨v, t, cause, hview, htarget, ?_,
        ((hreached.fails_of_obstacle .flatSelect).2 _).2 1 cause left hrun⟩
      rw [hrun, Edit.eq_of_atomically_eq_error hrun]

end Tree

end FlatSelect
