import FlatSelect.Proofs.Intact
import FlatSelect.Proofs.Steps

/-!
# Loading a tree again

A tree can be written down as its expression. When the expression is checked, as it is when a tree
is built of it, one fault only can come up in a tree that has come of checked expressions: a join
branch that reads a constant which is not a name. No transfer looks at what an operator stands on,
so an operator that is lifted out of a branch may leave such a constant there, and so may a view
whose body is one. Where this does not happen, the expression gives the same tree again
(`Tree.Grown.reloads`).
-/

namespace FlatSelect

/-- Whether the constant is a name, if there is one. -/
def Value.isNameOrNone (value : Option Value) : Bool :=
  value.all (·.asName?.isSome)

namespace Kind

/-- The kinds of the nodes that have a relation, or what comes of one, in slot 1. -/
def standsOnRelation : Kind → Bool
  | assign | renameAll => true
  | kind => kind.hasOperand

/-- Whether a node of this kind is a branch of a join with an alias. -/
def isBranch : Kind → Bool
  | renameAll => true
  | _ => false

theorem eq_renameAll_of_isBranch {kind : Kind} (h : kind.isBranch = true) : kind = .renameAll := by
  cases kind <;> first | rfl | cases h

theorem standsOnRelation_of_isBranch {kind : Kind} (h : kind.isBranch = true) :
    kind.standsOnRelation = true := by
  rw [eq_renameAll_of_isBranch h]
  rfl

theorem standsOnRelation_of_hasOperand {kind : Kind} (h : kind.hasOperand = true) :
    kind.standsOnRelation = true := by
  cases kind <;> first | rfl | cases h

end Kind

namespace Subtree

/-- Where a node of a marked kind has a constant in slot 1, that is a name. -/
def ReadsNames (marked : Kind → Bool) (s : Subtree) : Prop :=
  ∀ n ∈ s.preorder, marked n.kind = true → Value.isNameOrNone (n.slotValue 1) = true

instance (marked : Kind → Bool) (s : Subtree) : Decidable (s.ReadsNames marked) :=
  inferInstanceAs (Decidable (∀ n ∈ s.preorder, _))

variable {marked : Kind → Bool} {s s' : Subtree}

theorem readsNames_iff : s.ReadsNames marked ↔
    (marked s.kind = true → Value.isNameOrNone (s.slotValue 1) = true) ∧
      ∀ child, some child ∈ s.slots → child.ReadsNames marked :=
  forall_mem_preorder

theorem ReadsNames.mono {marked' : Kind → Bool} (h : s.ReadsNames marked)
    (hmarked : ∀ kind, marked' kind = true → marked kind = true) : s.ReadsNames marked' :=
  fun n hn hkind => h n hn (hmarked n.kind hkind)

/-- Whether values are names goes by their form. -/
theorem isNameOrNone_map_blank (value : Option Value) :
    Value.isNameOrNone (value.map Value.blank) = Value.isNameOrNone value := by
  rcases value with _ | v
  · rfl
  · cases v <;> rfl

theorem readsNames_blank (s : Subtree) : s.blank.ReadsNames marked ↔ s.ReadsNames marked := by
  simp [ReadsNames, preorder_blank, blank_slotValue, isNameOrNone_map_blank]

theorem readsNames_bare (s : Subtree) : s.bare.ReadsNames marked ↔ s.ReadsNames marked := by
  simp [ReadsNames, preorder_bare]

theorem readsNames_congr_blank (h : s'.blank = s.blank) :
    s'.ReadsNames marked ↔ s.ReadsNames marked := by
  rw [← readsNames_blank, h, readsNames_blank]

end Subtree

/-! ### Frames and paths -/

namespace Frame

variable {marked : Kind → Bool} {f : Frame} {s s' : Subtree}

theorem readsNames_fill : (f.fill (some s)).ReadsNames marked ↔
    (f.fill none).ReadsNames marked ∧ s.ReadsNames marked ∧
      (marked f.kind = true → f.slot = 1 → Value.isNameOrNone s.value = true) := by
  rw [Subtree.readsNames_iff, @Subtree.readsNames_iff _ (f.fill none)]
  simp only [fill_kind, fill_slots, List.mem_append, List.mem_cons, reduceCtorEq, false_or,
    Option.some.injEq]
  by_cases hslot : f.slot = 1
  · have hsome : (f.fill (some s)).slotValue 1 = s.value := by rw [← hslot, slotValue_fill]
    have hnone : (f.fill none).slotValue 1 = none := by
      rw [Subtree.slotValue, ← hslot, child_fill]
      rfl
    simp only [hsome, hnone, hslot, forall_const]
    grind [Value.isNameOrNone]
  · simp only [slotValue_fill_of_ne (some s) hslot, hslot, false_implies, implies_true, and_true]
    grind

end Frame

/-- What is no constant may give way to anything else that is none. -/
theorem Path.readsNames_fill_mono {marked : Kind → Bool} {path : Path} {s s' : Subtree}
    {c : Contract} (hreg : (path.fill s').Regular c) (hkind : s'.kind ≠ .constant)
    (h : s.ReadsNames marked → s'.ReadsNames marked) :
    (path.fill s).ReadsNames marked → (path.fill s').ReadsNames marked := by
  induction path generalizing s s' with
  | nil => exact h
  | cons f above ih =>
      have hparent : (f.fill (some s')).Regular c := @Subtree.Regular.foot c _ above hreg
      obtain ⟨hf, _, hs'⟩ := Frame.regular_fill.mp hparent
      refine ih hreg (Frame.kind_ne_constant hf.length_eq) ?_
      rw [Frame.readsNames_fill, Frame.readsNames_fill]
      rintro ⟨hframe, hs, _⟩
      refine ⟨hframe, h hs, fun _ _ => ?_⟩
      rw [hs'.value_of_ne_constant hkind]
      rfl

/-! ### Lifts -/

namespace Subtree

variable {c : Contract} {g : Grammar} {fresh : NodeId} {d f : Frame} {above path : Path}
  {below node node' parent' whole : Subtree} {rule : Transfer} {outcome : Lift.Outcome}
  {marked : Kind → Bool}

/-- A conjunction stands on no relation, so it may take the place of a predicate. -/
theorem readsNames_conjoined {s outer inner : Subtree} (hand : marked .and = false)
    (houter : s.child 0 = some outer) (hs : s.ReadsNames marked)
    (hinner : inner.ReadsNames marked) :
    (s.setChild 0 (some (.node fresh .and none [some outer, some inner]))).ReadsNames marked := by
  obtain ⟨p, rfl, hp⟩ := exists_frame houter
  obtain ⟨hframe, houterReads, _⟩ := Frame.readsNames_fill.mp hs
  rw [← hp, setChild_fill]
  refine Frame.readsNames_fill.mpr ⟨hframe, readsNames_iff.mpr ⟨?_, ?_⟩, ?_⟩
  · intro hmarked
    cases hand.symm.trans hmarked
  · intro child hchild
    simp only [slots, List.mem_cons, Option.some.injEq, List.not_mem_nil, or_false] at hchild
    rcases hchild with rfl | rfl
    · exact houterReads
    · exact hinner
  · intro _ hslot
    cases hp.symm.trans hslot

namespace Meets

/-- An operator that crosses a parent takes on what the parent hands down. -/
theorem readsNames_rises (h : Meets c g fresh d f above below rule (.rises node' parent'))
    (hmarked : marked d.kind = true)
    (hkept : (Path.fill (f :: above) (d.fill (some below))).ReadsNames marked) :
    (hung node' parent' above).ReadsNames marked := by
  obtain ⟨hnode, hparent⟩ := h.reworded
  have hkind := Kind.ne_constant_of_hasOperand h.hasOperand
  obtain ⟨hf, _, _⟩ := Frame.regular_fill.mp h.regular_before
  rw [readsNames_congr_blank (blank_hung_rises h.slot_eq hnode hparent above)]
  refine Path.readsNames_fill_mono (Regular.swap h.slot_eq hkind h.regular) hkind ?_ hkept
  simp only [Frame.readsNames_fill]
  rintro ⟨hparentReads, ⟨hoperatorReads, hbelow, hvalue⟩, _⟩
  refine ⟨hoperatorReads, ⟨hparentReads, hbelow, fun _ _ => hvalue hmarked h.slot_eq⟩, ?_⟩
  intro _ _
  rw [Frame.fill_value, hf.value_none]
  rfl

/-- A parent that absorbs an operator takes on what the operator stood on. -/
theorem readsNames_absorbed (h : Meets c g fresh d f above below rule (.absorbed parent'))
    (hmarked : marked d.kind = true) (hand : marked .and = false)
    (hkept : (Path.fill (f :: above) (d.fill (some below))).ReadsNames marked) :
    (Path.fill above parent').ReadsNames marked := by
  obtain ⟨hparent, hkind, hconstant⟩ := h.regular_absorbed
  have hwhole : (Path.fill above parent').Regular c :=
    @Regular.replace c (f.fill (some (d.fill (some below)))) parent' above h.regular hconstant
      hparent
  refine Path.readsNames_fill_mono hwhole (hkind ▸ hconstant) ?_ hkept
  rw [Frame.readsNames_fill, Frame.readsNames_fill]
  rintro ⟨hparentReads, ⟨hoperatorReads, hbelow, hvalue⟩, _⟩
  have hspliced : (f.fill (some below)).ReadsNames marked :=
    Frame.readsNames_fill.mpr ⟨hparentReads, hbelow, fun _ _ => hvalue hmarked h.slot_eq⟩
  cases h.comes with
  | absorbed hreworded => exact (readsNames_congr_blank hreworded.blank_eq).mpr hspliced
  | conjoined houter hinner =>
      exact readsNames_conjoined hand houter hspliced ((readsNames_iff.mp hoperatorReads).2 _
        (List.mem_of_getElem? (Option.join_eq_some_iff.mp hinner)))

end Meets

/-- A lift brings no constant under a marked node that was not there, as far as all operators are
marked. -/
theorem Regular.readsNames_of_lift (hreg : (path.fill node).Regular c)
    (hoperators : ∀ kind, kind.hasOperand = true → marked kind = true) (hand : marked .and = false)
    (hlift : node.lift g fresh path = .ok (outcome, whole))
    (hreads : (path.fill node).ReadsNames marked) : whole.ReadsNames marked := by
  have hkeeps : Keeps c g fresh node.kind path (ReadsNames marked) (ReadsNames marked) := by
    constructor
    case rises =>
      intro d _ _ _ _ _ _ _ _ hmeets hkept
      exact hmeets.readsNames_rises (hoperators d.kind hmeets.hasOperand) hkept
    case absorbs =>
      intro d _ _ _ _ _ _ _ hmeets hkept
      exact hmeets.readsNames_absorbed (hoperators d.kind hmeets.hasOperand) hand hkept
  exact hkeeps.whole_of_lift hlift hreg hreads

end Subtree

/-! ### Expressions -/

namespace Expr

variable {marked : Kind → Bool} {name : String} {body : Expr}

theorem mem_bareAll {s : Subtree} {es : List Expr} :
    some s ∈ bareAll es ↔ ∃ e ∈ es, e.bare = s := by
  induction es with
  | nil => simp [bareAll]
  | cons e es ih => simp [bareAll, ih, eq_comm]

theorem readsNames_bare_iff {kind : Kind} {value : Option Value} {children : List Expr} :
    (Expr.node kind value children).bare.ReadsNames marked ↔
      (marked kind = true → Value.isNameOrNone (children[1]?.bind Expr.value) = true) ∧
        ∀ e ∈ children, e.bare.ReadsNames marked := by
  rw [Subtree.readsNames_iff, slotValue_bare]
  refine and_congr Iff.rfl ?_
  constructor
  · intro h e he
    exact h e.bare (mem_bareAll.mpr ⟨e, he, rfl⟩)
  · intro h child hchild
    obtain ⟨e, he, rfl⟩ := mem_bareAll.mp hchild
    exact h e he

theorem isNameOrNone_inlined {e : Expr} (hbody : Value.isNameOrNone body.value = true)
    (he : Value.isNameOrNone e.value = true) :
    Value.isNameOrNone (inlined name body e).value = true := by
  obtain ⟨kind, value, children⟩ := e
  rw [inlined]
  split
  · exact hbody
  · exact he

theorem readsNames_inlinedBranch {e e' : Expr} (hvalue : Value.isNameOrNone body.value = true)
    (hbody : body.bare.ReadsNames marked) (h : e.bare.ReadsNames marked)
    (hinlined : inlinedBranch? name body e = some e') : e'.bare.ReadsNames marked := by
  obtain ⟨kind, value, children⟩ := e
  cases kind
  case constant =>
    rw [inlinedBranch?] at hinlined
    split at hinlined
    · cases hinlined
      refine readsNames_bare_iff.mpr ⟨fun _ => hvalue, ?_⟩
      intro e he
      simp only [List.mem_cons, List.not_mem_nil, or_false] at he
      rcases he with rfl | rfl
      · exact readsNames_bare_iff.mpr ⟨fun _ => rfl, fun e he => absurd he List.not_mem_nil⟩
      · exact hbody
    · cases hinlined
  case renameAll =>
    rw [inlinedBranch?] at hinlined
    split at hinlined
    · cases hinlined
      obtain ⟨_, hchildren⟩ := readsNames_bare_iff.mp h
      refine readsNames_bare_iff.mpr ⟨fun _ => ?_, ?_⟩
      · rw [List.getElem?_set_self']
        cases children[1]? with
        | none => rfl
        | some _ => exact hvalue
      · intro e he
        rcases List.mem_or_eq_of_mem_set he with he | rfl
        · exact hchildren e he
        · exact hbody
    · cases hinlined
  all_goals cases hinlined

mutual
/-- Inlining a body brings no constant under a marked node that was not there, as far as joins are
not marked. -/
theorem readsNames_inlined (hjoin : marked .input2 = false)
    (hvalue : Value.isNameOrNone body.value = true) (hbody : body.bare.ReadsNames marked) :
    ∀ {e : Expr}, e.bare.ReadsNames marked → (inlined name body e).bare.ReadsNames marked
  | .node kind value children, h => by
    rw [inlined]
    split
    · exact hbody
    · obtain ⟨hreads, hchildren⟩ := readsNames_bare_iff.mp h
      refine readsNames_bare_iff.mpr
        ⟨fun hmarked => ?_, readsNames_inlinedAll hjoin hvalue hbody kind hchildren⟩
      have hne : kind ≠ .input2 := by
        rintro rfl
        cases hjoin.symm.trans hmarked
      have hslot := hreads hmarked
      rw [inlinedAll_eq_map, List.getElem?_map]
      cases hchild : children[1]? with
      | none => rfl
      | some e =>
          rw [hchild] at hslot
          simp only [inlinedOperand_of_ne hne, Option.map_some, Option.bind_some]
          exact isNameOrNone_inlined hvalue hslot
theorem readsNames_inlinedAll (hjoin : marked .input2 = false)
    (hvalue : Value.isNameOrNone body.value = true) (hbody : body.bare.ReadsNames marked)
    (parent : Kind) : ∀ {es : List Expr}, (∀ e ∈ es, e.bare.ReadsNames marked) →
      ∀ e ∈ inlinedAll name body parent es, e.bare.ReadsNames marked
  | [], _ => fun e he => absurd he List.not_mem_nil
  | first :: rest, h => by
    have hreads := h first List.mem_cons_self
    have hfirst : (inlined name body first).bare.ReadsNames marked :=
      readsNames_inlined hjoin hvalue hbody hreads
    intro e he
    rcases List.mem_cons.mp he with rfl | he
    · split
      · cases hbranch : inlinedBranch? name body first with
        | none => exact hfirst
        | some e' => exact readsNames_inlinedBranch hvalue hbody hreads hbranch
      · exact hfirst
    · exact readsNames_inlinedAll hjoin hvalue hbody parent
        (fun e he => h e (List.mem_cons_of_mem first he)) e he
end

/-! ### Checking -/

theorem checkParameter_eq_ok {kind : Kind} {children : List Expr}
    (h : kind.hasParameter = true →
      ∃ v, children[0]?.bind value = some v ∧ kind.admits v = true) :
    checkParameter kind children = .ok () := by
  rw [checkParameter]
  split
  case isTrue hkeeps =>
    obtain ⟨v, hv, hadmits⟩ := h hkeeps
    rw [hv]
    exact if_pos hadmits
  case isFalse => rfl

/-- A branch that reads a constant other than a name fails its check. -/
theorem checkRelation_cases (kind : Kind) (children : List Expr) :
    ((kind.isBranch = true → Value.isNameOrNone (children[1]?.bind value) = true) ∧
      checkRelation kind children = .ok ()) ∨
    (¬ (kind.isBranch = true → Value.isNameOrNone (children[1]?.bind value) = true) ∧
      ∃ v, v.asName? = none ∧ checkRelation kind children = .error (.branchRelation v)) := by
  unfold checkRelation
  split
  case h_1 v hvalue =>
    have hnames : Value.isNameOrNone (children[1]?.bind value) = v.asName?.isSome := by
      rw [hvalue]
      rfl
    rw [hnames]
    split
    case isTrue hname => exact .inl ⟨fun _ => hname, rfl⟩
    case isFalse hname =>
      exact .inr ⟨fun h => hname (h rfl), v, Option.not_isSome_iff_eq_none.mp hname, rfl⟩
  case h_2 hother =>
    refine .inl ⟨fun hbranch => ?_, rfl⟩
    cases hvalue : children[1]?.bind value with
    | none => rfl
    | some v => exact (hother v (Kind.eq_renameAll_of_isBranch hbranch) hvalue).elim

mutual
/-- A regular expression makes sense, unless one of its branches reads a constant that is not a
name. -/
theorem check_of_regular : ∀ {e : Expr}, e.bare.Regular .strict →
    (e.bare.ReadsNames Kind.isBranch ∧ e.check = .ok ()) ∨
    (¬ e.bare.ReadsNames Kind.isBranch ∧
      ∃ v, v.asName? = none ∧ e.check = .error (.branchRelation v))
  | .node kind value children, h => by
    obtain ⟨⟨hvalue, hlength, hparameter⟩, hall⟩ := h
    have hnode : checkNode kind value children.length = .ok () :=
      checkNode_eq_ok.mpr ⟨hvalue, (length_bareAll children).symm.trans hlength⟩
    have hslot : checkParameter kind children = .ok () := by
      refine checkParameter_eq_ok fun hkeeps => ?_
      obtain ⟨v, hv, hadmits⟩ := hparameter hkeeps
      exact ⟨v, (slotValue_bare kind value children 0).symm.trans hv, hadmits⟩
    rw [readsNames_bare_iff, check, hnode]
    rcases checkAll_of_regular hall with ⟨hreads, hchildren⟩ | ⟨hreads, v, hv, hchildren⟩
    · rw [hchildren, hslot]
      rcases checkRelation_cases kind children with ⟨hbranch, hok⟩ | ⟨hbranch, v, hv, herror⟩
      · exact .inl ⟨⟨hbranch, hreads⟩, hok⟩
      · exact .inr ⟨fun h => hbranch h.1, v, hv, herror⟩
    · rw [hchildren]
      exact .inr ⟨fun h => hreads h.2, v, hv, rfl⟩
theorem checkAll_of_regular : ∀ {es : List Expr}, Subtree.RegularAll .strict (bareAll es) →
    ((∀ e ∈ es, e.bare.ReadsNames Kind.isBranch) ∧ checkAll es = .ok ()) ∨
    (¬ (∀ e ∈ es, e.bare.ReadsNames Kind.isBranch) ∧
      ∃ v, v.asName? = none ∧ checkAll es = .error (.branchRelation v))
  | [], _ => .inl ⟨fun e he => absurd he List.not_mem_nil, rfl⟩
  | first :: rest, h => by
    rw [checkAll]
    rcases check_of_regular h.1 with ⟨hfirst, hok⟩ | ⟨hfirst, v, hv, herror⟩
    · rw [hok]
      rcases checkAll_of_regular h.2 with ⟨hrest, hrestOk⟩ | ⟨hrest, v, hv, herror⟩
      · exact .inl ⟨List.forall_mem_cons.mpr ⟨hfirst, hrest⟩, hrestOk⟩
      · exact .inr ⟨fun h => hrest (List.forall_mem_cons.mp h).2, v, hv, herror⟩
    · rw [herror]
      exact .inr ⟨fun h => hfirst (List.forall_mem_cons.mp h).1, v, hv, rfl⟩
end

end Expr

/-! ### Trees -/

namespace Tree

/-- A tree that has come of expressions from some source by changes that all succeeded. -/
inductive Grown (source : Expr → Prop) : Tree → Prop
  | built {e : Expr} {t : Tree} (he : source e) (h : ofExpr e = .ok t) : Grown source t
  | inline {view t t' : Tree} {count : Nat} (hview : Grown source view) (h : Grown source t)
    (hrun : Edit.inline view t = .ok count t') : Grown source t'
  | lift {t t' : Tree} {g : Grammar} {node : NodeId} {outcome : Lift.Outcome} (h : Grown source t)
    (hrun : Edit.lift g node t = .ok outcome t') : Grown source t'
  | normalize {t t' : Tree} {g : Grammar} {roots : KindSet} {budget : Nat} {tally : Tally}
    (h : Grown source t) (hrun : Edit.normalize g roots budget t = .ok tally t') : Grown source t'
  | compact {t : Tree} (h : Grown source t) : Grown source t.compact

variable {source : Expr → Prop} {t t' view : Tree} {s : Subtree} {graves : Records} {c : Contract}
  {marked : Kind → Bool}

theorem Holds.readsNames_toExpr (h : t.Holds s graves) (hfull : s.full = true) :
    t.toExpr.bare.ReadsNames marked ↔ s.ReadsNames marked := by
  rw [h.toExpr_eq, ← Subtree.bare_eq_of_full hfull, Subtree.readsNames_bare]

namespace Intact

theorem readsNames_of_lift {g : Grammar} {node : NodeId} {outcome : Lift.Outcome}
    (h : t.Intact c) (hlift : Edit.lift g node t = .ok outcome t')
    (hreads : t.toExpr.bare.ReadsNames Kind.standsOnRelation) :
    t'.toExpr.bare.ReadsNames Kind.standsOnRelation := by
  rcases h.lift_cases hlift with
    ⟨path, s, whole, _, _, _, hholds, hreg, hwhole, hholds', _⟩ | ⟨_, rfl⟩
  · rw [hholds.readsNames_toExpr hreg.full] at hreads
    rw [hholds'.readsNames_toExpr (hreg.of_lift hwhole).full]
    exact hreg.readsNames_of_lift (fun _ => Kind.standsOnRelation_of_hasOperand) rfl hwhole hreads
  · exact hreads

theorem readsNames_of_normalize {g : Grammar} {roots : KindSet} {budget : Nat} {tally : Tally}
    (h : t.Intact c) (hrun : Edit.normalize g roots budget t = .ok tally t')
    (hreads : t.toExpr.bare.ReadsNames Kind.standsOnRelation) :
    t'.toExpr.bare.ReadsNames Kind.standsOnRelation := by
  obtain ⟨s, graves, hholds, _⟩ := id h
  obtain ⟨outcomes, last, hsettles, _, _, rfl⟩ :=
    Edit.exists_settles_of_normalize hholds.represents hrun
  have hkept := hsettles.keeps
    (fun t => t.Intact c ∧ t.toExpr.bare.ReadsNames Kind.standsOnRelation)
    (fun ⟨ht, hreads⟩ _ hlift => ⟨ht.lift hlift, ht.readsNames_of_lift hlift hreads⟩) ⟨h, hreads⟩
  rw [hkept.1.toExpr_compact]
  exact hkept.2

/-- The body of a view is what the view stands on, so it is no constant but a name. -/
theorem readsNames_of_inline {count : Nat} (h : t.Intact c) (hview : view.Intact c)
    (hrun : Edit.inline view t = .ok count t')
    (hviewReads : view.toExpr.bare.ReadsNames Kind.standsOnRelation)
    (hreads : t.toExpr.bare.ReadsNames Kind.standsOnRelation) :
    t'.toExpr.bare.ReadsNames Kind.standsOnRelation := by
  obtain ⟨s, graves, hholds, hreg, _⟩ := h
  obtain ⟨top, graves', hholds', htop, _⟩ := hview
  obtain ⟨name, body, s', gone, hasView, hresult, hbecomes, _⟩ :=
    hholds.inline hreg hholds' htop hrun
  obtain ⟨hkind, _, hchild⟩ := hholds'.asView_eq_ok.mp hasView
  obtain ⟨f, rfl, hslot⟩ := Subtree.exists_frame hchild
  rw [hholds'.readsNames_toExpr htop.full, Frame.readsNames_fill] at hviewReads
  obtain ⟨_, hbody, hvalue⟩ := hviewReads
  have hfull : body.full = true := (Frame.regular_fill.mp htop).2.2.full
  have hbodyExpr : body.toExpr.bare.ReadsNames Kind.standsOnRelation := by
    rwa [← Subtree.bare_eq_of_full hfull, Subtree.readsNames_bare]
  have hbodyValue : Value.isNameOrNone body.toExpr.value = true := by
    rw [Subtree.value_toExpr]
    refine hvalue ?_ hslot
    rw [show f.kind = .assign from hkind]
    rfl
  have hinlined : (s'.toExpr).bare.ReadsNames Kind.standsOnRelation := by
    rw [hbecomes.toExpr_eq]
    refine Expr.readsNames_inlined rfl hbodyValue hbodyExpr ?_
    rwa [hholds.toExpr_eq] at hreads
  rwa [hresult.toExpr_eq]

end Intact

namespace Grown

theorem intact (h : Grown source t) : t.Intact .strict := by
  induction h with
  | built _ h => exact intact_of_ofExpr h
  | inline _ _ hrun hview ih => exact ih.inline hview hrun
  | lift _ hrun ih => exact ih.lift hrun
  | normalize _ hrun ih => exact ih.normalize hrun
  | compact _ ih => exact ih.compact

/-- Where nothing that is to be a relation is a constant other than a name, nothing becomes one. -/
theorem readsNames (h : Grown source t)
    (hsource : ∀ e, source e → e.bare.ReadsNames Kind.standsOnRelation) :
    t.toExpr.bare.ReadsNames Kind.standsOnRelation := by
  induction h with
  | built he h =>
      obtain ⟨s, hholds, rfl, _⟩ := holds_of_ofExpr h
      rw [hholds.toExpr_eq]
      exact hsource _ he
  | inline hview h hrun ihview ih => exact h.intact.readsNames_of_inline hview.intact hrun ihview ih
  | lift h hrun ih => exact h.intact.readsNames_of_lift hrun ih
  | normalize h hrun ih => exact h.intact.readsNames_of_normalize hrun ih
  | compact h ih =>
      rw [h.intact.toExpr_compact]
      exact ih

/-- A tree that is written down gives the same tree again, unless it has a join branch that reads a
constant other than a name: then that is the fault that is found. No such branch ever comes up if in
what all has come of, nothing that stands for a relation is a constant other than a name. -/
theorem reloads (h : Grown source t) :
    t.compact.toExpr = t.toExpr ∧
    (t.toExpr.bare.ReadsNames Kind.isBranch → ofExpr t.toExpr = .ok t.compact) ∧
    (¬ t.toExpr.bare.ReadsNames Kind.isBranch → ∃ v, v.asName? = none ∧
      ofExpr t.toExpr = .error (.malformedTree (.branchRelation v))) ∧
    ((∀ e, source e → e.bare.ReadsNames Kind.standsOnRelation) →
      ofExpr t.toExpr = .ok t.compact) := by
  obtain ⟨s, graves, hholds, hreg, _⟩ := h.intact
  have hexpr : t.toExpr = s.toExpr := hholds.toExpr_eq
  have hchecked := Expr.check_of_regular ((Subtree.regular_toExpr hreg.full).mpr hreg)
  rw [← hexpr] at hchecked
  have hreloads : t.toExpr.bare.ReadsNames Kind.isBranch → ofExpr t.toExpr = .ok t.compact := by
    intro hreads
    rcases hchecked with ⟨_, hok⟩ | ⟨hfault, _⟩
    · rw [hexpr] at hok ⊢
      exact hholds.represents.ofExpr_toExpr hreg.full hok
    · exact absurd hreads hfault
  refine ⟨h.intact.toExpr_compact, hreloads, ?_, ?_⟩
  · intro hfault
    rcases hchecked with ⟨hreads, _⟩ | ⟨_, v, hv, herror⟩
    · exact absurd hreads hfault
    · exact ⟨v, hv, by rw [ofExpr, herror]⟩
  · intro hsource
    exact hreloads ((h.readsNames hsource).mono fun _ => Kind.standsOnRelation_of_isBranch)

/-- A view goes into both branches of a join, and all that it brings is lifted out of them. -/
theorem reloads_view :
    let view := Expr.assign "v" (.projection ["a"] (.rename "a" "b" (.input1 "t")))
    let target := Expr.assign "V" (.input2 (.branch "A" "v") (.name "v"))
    ∃ v t t' t'', ofExpr view = .ok v ∧ ofExpr target = .ok t ∧ Edit.inline v t = .ok 2 t' ∧
      Edit.normalize .flatSelect (.ofList [.assign]) 10 t' = .ok ⟨4, 1⟩ t'' ∧
      t''.compact.toExpr = t''.toExpr ∧ ofExpr t''.toExpr = .ok t''.compact := by
  intro view target
  let v := planted view
  let t := planted target
  have hview : ofExpr view = .ok v := ofExpr_eq_ok.mpr ⟨rfl, rfl⟩
  have htarget : ofExpr target = .ok t := ofExpr_eq_ok.mpr ⟨rfl, rfl⟩
  have hruns : (match Edit.inline v t with
      | .ok count t' => decide (count = 2) &&
        match Edit.normalize .flatSelect (.ofList [.assign]) 10 t' with
        | .ok tally _ => decide (tally = ⟨4, 1⟩)
        | .error _ _ => false
      | .error _ _ => false) = true := by decide +kernel
  cases hinline : Edit.inline v t with
  | error => simp [hinline] at hruns
  | ok count t' =>
      rw [hinline] at hruns
      cases hrun : Edit.normalize .flatSelect (.ofList [.assign]) 10 t' with
      | error => simp [hrun] at hruns
      | ok tally t'' =>
          simp only [hrun, Bool.and_eq_true, decide_eq_true_eq] at hruns
          obtain ⟨rfl, rfl⟩ := hruns
          have hgrown : Grown (· ∈ [view, target]) t'' :=
            .normalize (.inline (.built (by simp) hview) (.built (by simp) htarget) hinline) hrun
          have hsources : ∀ e ∈ [view, target], e.bare.ReadsNames Kind.standsOnRelation := by
            decide +kernel
          obtain ⟨hcompact, _, _, hreloads⟩ := hgrown.reloads
          exact ⟨v, t, t', t'', hview, htarget, hinline, hrun, hcompact, hreloads hsources⟩

end Grown

/-- A rename is lifted out of a branch and leaves it reading a list of columns. What comes of the
normalization cannot be loaded again. -/
theorem normalize_leaves_columns_in_branch :
    let e := Expr.assign "T" (.input2
      (.renameAll "A" (.rename "x" "y" (.constant (.columns ["a"])))) (.name "b"))
    ∃ t t', ofExpr e = .ok t ∧
      Edit.normalize .flatSelect (.ofList [.assign]) 1 t = .ok ⟨1, 0⟩ t' ∧
      t'.toExpr = .assign "T" (.rename "A.x" "A.y" (.input2
        (.renameAll "A" (.constant (.columns ["a"]))) (.name "b"))) ∧
      ofExpr t'.toExpr = .error (.malformedTree (.branchRelation (.columns ["a"]))) := by
  intro e
  let t := planted e
  have ht : ofExpr e = .ok t := ofExpr_eq_ok.mpr ⟨rfl, rfl⟩
  have hruns : (match Edit.normalize .flatSelect (.ofList [.assign]) 1 t with
      | .ok tally t' => decide (tally = ⟨1, 0⟩ ∧ t'.toExpr = .assign "T" (.rename "A.x" "A.y"
        (.input2 (.renameAll "A" (.constant (.columns ["a"]))) (.name "b"))))
      | .error _ _ => false) = true := by decide +kernel
  cases hrun : Edit.normalize .flatSelect (.ofList [.assign]) 1 t with
  | error => simp [hrun] at hruns
  | ok tally t' =>
      rw [hrun] at hruns
      obtain ⟨rfl, hexpr⟩ := of_decide_eq_true hruns
      refine ⟨t, t', ht, hrun, hexpr, ?_⟩
      rw [hexpr]
      rfl

end Tree

end FlatSelect
