import FlatSelect.Proofs.Obstacles
import FlatSelect.Proofs.Restless
import FlatSelect.Proofs.Steps

/-!
# Operators in predicates

A predicate is made of connectives, comparisons and leaves, but nothing keeps an expression from
having other operators in one. Those that are at the top of a predicate, one upon the other, can be
lifted out of it, for a transfer goes by kinds and not by the slot that a node comes from. An
operator that stands anywhere else in a predicate stays there for good: no transfer takes it past a
connective or a comparison. So normalization fails if some predicate has such an operator, and where
it succeeds, no predicate has any operator left (`Tree.Reached.normalize_refuses_buried_operators`).
-/

namespace FlatSelect

namespace Subtree

/-- Made of connectives, comparisons and leaves alone. -/
def Plain (s : Subtree) : Prop :=
  ∀ n ∈ s.preorder, KindSet.predicates.contains n.kind = true

/-- A predicate that can be cleared of other operators: they are all at the top, one upon the other.
A condition among them is the last, as its own predicate and what it stands on are made into one. -/
inductive Clears : Subtree → Prop
  | plain {s : Subtree} (h : s.Plain) : Clears s
  | stacked {s operand : Subtree} (hkind : s.kind.hasOperand = true) (hne : s.kind ≠ .condition)
    (hoperand : s.child 1 = some operand) (h : Clears operand) : Clears s
  | condition {s inner below : Subtree} (hkind : s.kind = .condition)
    (hslots : s.slots = [some inner, some below]) (hinner : inner.Plain) (hbelow : below.Plain) :
    Clears s

/-- The predicates of the conditions in a subtree. -/
def predicates (s : Subtree) : List Subtree :=
  s.preorder.filterMap fun n => if n.kind = .condition then n.child 0 else none

/-- Some predicate has an operator that cannot be lifted out of it. -/
def Barred (s : Subtree) : Prop :=
  ∃ p ∈ s.predicates, ¬ p.Clears

variable {s s' p : Subtree}

/-! ### Reading plain and barred subtrees from the top -/

theorem plain_iff : s.Plain ↔ KindSet.predicates.contains s.kind = true ∧
    ∀ child, some child ∈ s.slots → child.Plain :=
  forall_mem_preorder

theorem mem_predicates :
    p ∈ s.predicates ↔ ∃ n ∈ s.preorder, n.kind = .condition ∧ n.child 0 = some p := by
  simp only [predicates, List.mem_filterMap, Option.ite_none_right_eq_some]

theorem barred_iff : s.Barred ↔
    (s.kind = .condition ∧ ∃ p, s.child 0 = some p ∧ ¬ p.Clears) ∨
      ∃ child, some child ∈ s.slots ∧ child.Barred := by
  simp only [Barred, mem_predicates, mem_preorder (s := s)]
  constructor
  · rintro ⟨p, ⟨n, rfl | ⟨child, hchild, hn⟩, hkind, hp⟩, hclears⟩
    · exact .inl ⟨hkind, p, hp, hclears⟩
    · exact .inr ⟨child, hchild, p, ⟨n, hn, hkind, hp⟩, hclears⟩
  · rintro (⟨hkind, p, hp, hclears⟩ | ⟨child, hchild, p, ⟨n, hn, hkind, hp⟩, hclears⟩)
    · exact ⟨p, ⟨s, .inl rfl, hkind, hp⟩, hclears⟩
    · exact ⟨p, ⟨n, .inr ⟨child, hchild, hn⟩, hkind, hp⟩, hclears⟩

theorem Clears.plain_of_kind (h : s.Clears) (hkind : s.kind.hasOperand = false) : s.Plain := by
  cases h with
  | plain h => exact h
  | stacked hstacked => exact absurd (hkind.symm.trans hstacked) (by decide)
  | condition hcondition =>
      rw [hcondition] at hkind
      cases hkind

/-! ### What is plain or barred does not depend on values -/

theorem plain_blank : s.blank.Plain ↔ s.Plain := by
  simp [Plain, preorder_blank]

theorem Clears.blank (h : s.Clears) : s.blank.Clears := by
  induction h with
  | plain h => exact .plain (plain_blank.mpr h)
  | @stacked s operand hkind hne hoperand _ ih =>
      refine .stacked ?_ ?_ (?_ : _ = some operand.blank) ih
      · rwa [blank_kind]
      · rwa [blank_kind]
      · rw [blank_child, hoperand]
        rfl
  | @condition s inner below hkind hslots hinner hbelow =>
      refine .condition ?_ (?_ : _ = [some inner.blank, some below.blank])
        (plain_blank.mpr hinner) (plain_blank.mpr hbelow)
      · rwa [blank_kind]
      · rw [blank_slots, hslots]
        rfl

theorem clears_blank : s.blank.Clears ↔ s.Clears := by
  refine ⟨fun h => ?_, Clears.blank⟩
  generalize hblank : s.blank = b at h
  induction h generalizing s with
  | plain h => exact .plain (plain_blank.mp (hblank ▸ h))
  | stacked hkind hne hoperand _ ih =>
      subst hblank
      rw [blank_kind] at hkind hne
      rw [blank_child] at hoperand
      obtain ⟨operand, hchild, hoperand⟩ := Option.map_eq_some_iff.mp hoperand
      exact .stacked hkind hne hchild (ih hoperand)
  | condition hkind hslots hinner hbelow =>
      subst hblank
      rw [blank_kind] at hkind
      obtain ⟨id, kind, value, slots⟩ := s
      rw [blank_slots] at hslots
      change slots.map _ = _ at hslots
      match slots, hslots with
      | [some inner, some below], hslots =>
          simp only [List.map_cons, Option.map_some, List.map_nil, List.cons.injEq,
            Option.some.injEq, and_true] at hslots
          obtain ⟨rfl, rfl⟩ := hslots
          exact .condition hkind rfl (plain_blank.mp hinner) (plain_blank.mp hbelow)

theorem predicates_blank (s : Subtree) : s.blank.predicates = s.predicates.map blank := by
  rw [predicates, preorder_blank, List.filterMap_map, predicates, List.map_filterMap]
  congr 1
  funext n
  simp only [Function.comp_apply, blank_kind, blank_child]
  split <;> rfl

theorem barred_congr_blank (h : s'.blank = s.blank) : s'.Barred ↔ s.Barred := by
  have hblank : ∀ s : Subtree, s.blank.Barred ↔ s.Barred := by
    intro s
    simp [Barred, predicates_blank, clears_blank]
  rw [← hblank, h, hblank]

end Subtree

/-! ### Frames and paths -/

namespace Frame

variable {f : Frame} {s : Subtree}

/-- A whole is barred by its frame, by what fills it, or because that is no predicate that can be
cleared. -/
theorem barred_fill : (f.fill (some s)).Barred ↔ (f.fill none).Barred ∨ s.Barred ∨
    (f.kind = .condition ∧ f.slot = 0 ∧ ¬ s.Clears) := by
  rw [Subtree.barred_iff, @Subtree.barred_iff (f.fill none)]
  simp only [fill_kind, fill_slots, List.mem_append, List.mem_cons, reduceCtorEq, false_or,
    Option.some.injEq]
  by_cases hslot : f.slot = 0
  · have hsome : (f.fill (some s)).child 0 = some s := by rw [← hslot, child_fill]
    have hnone : (f.fill none).child 0 = none := by rw [← hslot, child_fill]
    simp only [hsome, hnone, Option.some.injEq, reduceCtorEq, false_and, exists_false, and_false,
      exists_eq_left', hslot, true_and]
    grind
  · simp only [child_fill_of_ne (some s) hslot, hslot, false_and, and_false, or_false]
    grind

end Frame

namespace Path

/-- No frame of a path is a condition that is open at its predicate. -/
def Upright (path : Path) : Prop :=
  ∀ f ∈ path, f.kind = .condition → f.slot ≠ 0

theorem barred_fill_mono {path : Path} {s s' : Subtree} (hup : path.Upright)
    (h : s.Barred → s'.Barred) : (path.fill s).Barred → (path.fill s').Barred := by
  induction path generalizing s s' with
  | nil => exact h
  | cons f above ih =>
      refine ih (fun a ha => hup a (List.mem_cons_of_mem f ha)) ?_
      rw [Frame.barred_fill, Frame.barred_fill]
      rintro (hframe | hs | ⟨hkind, hslot, _⟩)
      · exact .inl hframe
      · exact .inr (.inl (h hs))
      · exact absurd hslot (hup f List.mem_cons_self hkind)

theorem Clear.suffix {g : Grammar} {roots : KindSet} {path path' : Path} (h : path.Clear g roots)
    (hsuffix : path' <:+ path) : path'.Clear g roots := by
  induction path with
  | nil =>
      rw [List.suffix_nil.mp hsuffix]
      exact h
  | cons f above ih =>
      rcases List.suffix_cons_iff.mp hsuffix with rfl | hsuffix
      · exact h
      · exact ih h.2.2 hsuffix

end Path

namespace Grammar

/-- Below what a predicate is made of, nothing else may stand. -/
theorem predicates_of_allows {parent kind : Kind} {slot : Nat}
    (hparent : KindSet.predicates.contains parent = true)
    (h : flatSelect.allows parent slot kind = true) : KindSet.predicates.contains kind = true := by
  rcases slot with _ | _ | slot
  · cases parent <;> revert hparent h <;> cases kind <;> decide
  · cases parent <;> revert hparent h <;> cases kind <;> decide
  · cases parent <;> exact absurd (show false = true from h) (by decide)

end Grammar

/-- Nothing is lifted past what a predicate is made of. -/
theorem Transfer.not_predicates_of_between? {node parent : Kind} {rule : Transfer}
    (h : between? node parent = some rule) : KindSet.predicates.contains parent = false := by
  have hall : ∀ entry ∈ table, KindSet.predicates.contains entry.2.1 = false := by decide
  exact hall _ (mem_table_of_between? h)

namespace Path

variable {roots : KindSet} {f : Frame} {above : Path}

/-- What stands in a predicate where all is where it may be is made for predicates. -/
theorem Clear.predicates_of_mem (h : Clear .flatSelect roots (f :: above)) {a : Frame}
    (ha : a ∈ above) (hkind : a.kind = .condition) (hslot : a.slot = 0) :
    KindSet.predicates.contains f.kind = true := by
  induction above generalizing f with
  | nil => cases ha
  | cons b rest ih =>
      obtain ⟨hf, _, hrest⟩ := h
      rcases List.mem_cons.mp ha with rfl | ha
      · rw [expected, hkind, hslot] at hf
        exact hf
      · exact Grammar.predicates_of_allows (ih hrest ha) hf

/-- Where an operator crosses a parent on a clear path, it is not in a predicate that is further
up. -/
theorem Clear.upright {node : Kind} {rule : Transfer} (h : Clear .flatSelect roots (f :: above))
    (hrule : Transfer.between? node f.kind = some rule) : above.Upright := by
  intro a ha hkind hslot
  have hpredicate := h.predicates_of_mem ha hkind hslot
  rw [Transfer.not_predicates_of_between? hrule] at hpredicate
  cases hpredicate

end Path

/-! ### Lifts -/

namespace Subtree

variable {c : Contract} {g : Grammar} {fresh : NodeId} {d f : Frame} {above path : Path}
  {below node node' parent' whole : Subtree} {rule : Transfer} {outcome : Lift.Outcome}

/-- An operator other than a condition may be taken off a predicate. -/
theorem not_clears_operand (hd : d.slot = 1) (hoperand : d.kind.hasOperand = true)
    (hne : d.kind ≠ .condition) (h : ¬ (d.fill (some below)).Clears) : ¬ below.Clears := by
  intro hbelow
  refine h (.stacked hoperand hne ?_ hbelow)
  rw [← hd, Frame.child_fill]

/-- Nothing is barred in an operator without its operand, unless it is a condition. -/
theorem Regular.not_barred_operator (h : (d.fill (some below)).Regular c) (hd : d.slot = 1)
    (hkind : d.kind.hasOperand = true) (hne : d.kind ≠ .condition) : ¬ (d.fill none).Barred := by
  obtain ⟨first, hbefore, hafter, hfirst, hconstant⟩ := h.exists_parameter hd hkind
  have hleaf := hconstant hne
  have hbarred : ¬ first.Barred := by
    rw [barred_iff, hleaf, hfirst.slots_of_constant hleaf]
    rintro (⟨hcondition, _⟩ | ⟨child, hchild, _⟩)
    · cases hcondition
    · cases hchild
  rw [barred_iff, Frame.fill_slots, hbefore, hafter]
  rintro (⟨hcondition, _⟩ | ⟨child, hchild, hchildBarred⟩)
  · exact hne hcondition
  · simp only [List.singleton_append, List.mem_cons, Option.some.injEq, reduceCtorEq,
      List.not_mem_nil, or_false] at hchild
    exact hbarred (hchild ▸ hchildBarred)

/-- A condition is barred by its predicate, in it or in what it stands on. -/
theorem barred_condition {s p q : Subtree} (hkind : s.kind = .condition)
    (hslots : s.slots = [some p, some q]) : s.Barred ↔ ¬ p.Clears ∨ p.Barred ∨ q.Barred := by
  have hchild : s.child 0 = some p := by
    rw [child, hslots]
    rfl
  rw [barred_iff, hchild, hslots]
  simp [hkind]

/-- A conjunction is not stacked upon anything. -/
theorem clears_conjunction {id : NodeId} {outer inner : Subtree}
    (h : (Subtree.node id .and none [some outer, some inner]).Clears) :
    outer.Plain ∧ inner.Plain := by
  obtain ⟨_, hall⟩ := plain_iff.mp (h.plain_of_kind rfl)
  exact ⟨hall outer (by simp [slots]), hall inner (by simp [slots])⟩

theorem barred_conjunction {id : NodeId} {outer inner : Subtree} :
    (Subtree.node id .and none [some outer, some inner]).Barred ↔ outer.Barred ∨ inner.Barred := by
  rw [barred_iff]
  simp [Subtree.kind, slots]

namespace Meets

/-- Only one of an operator that rises and the parent that it crosses is a condition. -/
theorem ne_condition_of_rises (h : Meets c g fresh d f above below rule (.rises node' parent'))
    (hf : f.kind = .condition) : d.kind ≠ .condition := by
  intro hd
  have hrule := h.rule_eq
  rw [hd, hf] at hrule
  cases h.comes with
  | rises _ _ _ hconjoin => exact hconjoin (Option.some.inj hrule).symm

/-- An operator that crosses a parent leaves the whole barred. If it was what barred the parent's
predicate, it was not alone. -/
theorem barred_rises (h : Meets c g fresh d f above below rule (.rises node' parent'))
    (hup : above.Upright) (hbarred : (Path.fill (f :: above) (d.fill (some below))).Barred) :
    (hung node' parent' above).Barred := by
  obtain ⟨hnode, hparent⟩ := h.reworded
  rw [barred_congr_blank (blank_hung_rises h.slot_eq hnode hparent above)]
  refine Path.barred_fill_mono hup ?_ hbarred
  have hd : d.slot ≠ 0 := by rw [h.slot_eq]; decide
  simp only [Frame.barred_fill, hd, false_and, and_false, or_false]
  rintro (hf | (hd | hbelow) | ⟨hkind, hslot, hclears⟩)
  · exact .inr (.inl hf)
  · exact .inl hd
  · exact .inr (.inr (.inl hbelow))
  · exact .inr (.inr (.inr ⟨hkind, hslot,
      not_clears_operand h.slot_eq h.hasOperand (h.ne_condition_of_rises hkind) hclears⟩))

/-- Two conditions that are made into one are barred as one if they were as two. -/
theorem barred_conjoined {outer inner : Subtree}
    (h : Meets c g fresh d f above below rule (.absorbed parent')) (hdkind : d.kind = .condition)
    (hfkind : f.kind = .condition) (houter : (f.fill (some below)).child 0 = some outer)
    (hinner : (d.fill none).child 0 = some inner)
    (hparent : parent' = (f.fill (some below)).setChild 0
      (some (.node fresh .and none [some outer, some inner])))
    (hbarred : (f.fill (some (d.fill (some below)))).Barred) : parent'.Barred := by
  -- The operator is a condition with `inner` for its predicate.
  obtain ⟨first, hbefore, hafter, _⟩ := h.regular_operator.exists_parameter h.slot_eq h.hasOperand
  obtain rfl : first = inner := by
    rw [child, Frame.fill_slots, hbefore] at hinner
    exact Option.some.inj hinner
  have hslots : (d.fill (some below)).slots = [some first, some below] := by
    rw [Frame.fill_slots, hbefore, hafter]
    rfl
  have hoperator := barred_condition (s := d.fill (some below)) hdkind hslots
  have hcleared : first.Plain → below.Plain → (d.fill (some below)).Clears :=
    Clears.condition hdkind hslots
  -- The parent is a condition with the operator for its predicate or for what it stands on.
  obtain ⟨predicate, operand, hparentSlots, _⟩ := h.regular_parent.exists_slots
    (show f.kind.arity = 2 by rw [hfkind]; rfl)
  obtain rfl : predicate = outer := by
    rw [child, hparentSlots] at houter
    exact Option.some.inj houter
  have hafterwards := @barred_condition parent' (.node fresh .and none [some predicate, some first])
    operand (by rw [hparent]; exact hfkind)
    (by rw [hparent, setChild_slots, hparentSlots]; rfl)
  rw [hafterwards, barred_conjunction]
  by_cases hclears : (Subtree.node fresh .and none [some predicate, some first]).Clears
  case neg => exact .inl hclears
  obtain ⟨hpredicate, hfirst⟩ := clears_conjunction hclears
  refine .inr ?_
  obtain ⟨id, kind, value, before, after⟩ := f
  obtain rfl : kind = .condition := hfkind
  -- The operator stands in slot 0 or in slot 1, as the parent has no more.
  rcases before with _ | ⟨hole, _ | ⟨_, _⟩⟩
  · have hslots : some below :: after = [some predicate, some operand] := hparentSlots
    simp only [List.cons.injEq, Option.some.injEq] at hslots
    obtain ⟨rfl, rfl⟩ := hslots
    rw [@barred_condition _ (d.fill (some below)) operand rfl rfl, hoperator] at hbarred
    rcases hbarred with hcleared' | (hfirst' | hbarred | hbarred) | hbarred
    · exact absurd (hcleared hfirst hpredicate) hcleared'
    · exact absurd (.plain hfirst) hfirst'
    · exact .inl (.inr hbarred)
    · exact .inl (.inl hbarred)
    · exact .inr hbarred
  · have hslots : hole :: some below :: after = [some predicate, some operand] := hparentSlots
    simp only [List.cons.injEq, Option.some.injEq] at hslots
    obtain ⟨rfl, rfl, rfl⟩ := hslots
    rw [@barred_condition _ predicate (d.fill (some below)) rfl rfl, hoperator] at hbarred
    rcases hbarred with hpredicate' | hbarred | hfirst' | hbarred | hbarred
    · exact absurd (.plain hpredicate) hpredicate'
    · exact .inl (.inl hbarred)
    · exact absurd (.plain hfirst) hfirst'
    · exact .inl (.inr hbarred)
    · exact .inr hbarred
  · have hlength := congrArg List.length hparentSlots
    simp at hlength

/-- A parent that absorbs an operator leaves the whole barred. -/
theorem barred_absorbed (h : Meets c g fresh d f above below rule (.absorbed parent'))
    (hup : above.Upright) (hbarred : (Path.fill (f :: above) (d.fill (some below))).Barred) :
    (Path.fill above parent').Barred := by
  refine Path.barred_fill_mono hup ?_ hbarred
  intro hbefore
  have hcondition := @eq_conjoinConditions_of_absorbed rule fresh (d.fill none)
    (f.fill (some below)) parent' f.slot
  generalize hcrossed : Crossed.absorbed parent' = crossed at h
  cases h.comes with
  | rises => cases hcrossed
  | absorbed hreworded hconjoin =>
      cases hcrossed
      have hne : d.kind ≠ .condition :=
        fun hkind => hconjoin (hcondition hkind h.rule_eq h.cross_eq)
      have hd : ¬ (d.fill none).Barred :=
        h.regular_operator.not_barred_operator h.slot_eq h.hasOperand hne
      have hdslot : d.slot ≠ 0 := by rw [h.slot_eq]; decide
      rw [barred_congr_blank hreworded.blank_eq, Frame.barred_fill]
      simp only [Frame.barred_fill, hd, hdslot, false_and, and_false, or_false, false_or]
        at hbefore
      rcases hbefore with hf | hbelow | ⟨hkind, hslot, hclears⟩
      · exact .inl hf
      · exact .inr (.inl hbelow)
      · exact .inr (.inr ⟨hkind, hslot,
          not_clears_operand h.slot_eq h.hasOperand hne hclears⟩)
  | @conjoined outer inner houter hinner =>
      obtain ⟨hdkind, hfkind⟩ := Transfer.condition_of_conjoinConditions h.rule_eq
      cases hcrossed
      exact h.barred_conjoined hdkind hfkind houter hinner rfl hbefore

end Meets

/-- Under the grammar of flat selects, what is barred stays so when the first deviation is
lifted. -/
theorem Regular.barred_of_lift {roots : KindSet} (hreg : (path.fill node).Regular c)
    (hclear : path.Clear .flatSelect roots)
    (hlift : node.lift .flatSelect fresh path = .ok (outcome, whole))
    (hbarred : (path.fill node).Barred) : whole.Barred := by
  have hkeeps : Keeps c .flatSelect fresh node.kind path Barred Barred := by
    constructor
    case rises =>
      intro d f above below node' parent' rule _ hpath hmeets hkept
      exact hmeets.barred_rises ((hclear.suffix hpath).upright hmeets.rule_eq) hkept
    case absorbs =>
      intro d f above below parent' rule _ hpath hmeets hkept
      exact hmeets.barred_absorbed ((hclear.suffix hpath).upright hmeets.rule_eq) hkept
  exact hkeeps.whole_of_lift hlift hreg hbarred

/-! ### Conforming to the grammar -/

mutual
/-- What is where it may be in a predicate is plain. -/
theorem plain_of_deviation? {expected : KindSet}
    (hexpected : ∀ kind, expected.contains kind = true →
      KindSet.predicates.contains kind = true) :
    ∀ {s : Subtree}, s.deviation? .flatSelect expected = none → s.Plain
  | .node id kind value slots, h => by
    rw [deviation?] at h
    split at h
    case isTrue hkind =>
      exact plain_iff.mpr ⟨hexpected kind hkind, plain_of_deviationIn? (hexpected kind hkind) h⟩
    case isFalse => cases h
theorem plain_of_deviationIn? {parent : Kind}
    (hparent : KindSet.predicates.contains parent = true) :
    ∀ {slots : List (Option Subtree)} {slot : Nat},
      deviationIn? .flatSelect parent slot slots = none → ∀ s, some s ∈ slots → s.Plain
  | [], _, _ => fun _ hs => absurd hs List.not_mem_nil
  | none :: rest, slot, h => by
    intro s hs
    have hrest : deviationIn? .flatSelect parent (slot + 1) rest = none := h
    exact plain_of_deviationIn? hparent hrest s ((List.mem_cons.mp hs).resolve_left (by simp))
  | some first :: rest, slot, h => by
    rw [deviationIn?, Option.or_eq_none_iff] at h
    intro s hs
    rcases List.mem_cons.mp hs with heq | hs
    · cases heq
      exact plain_of_deviation? (fun _ => Grammar.predicates_of_allows hparent) h.1
    · exact plain_of_deviationIn? hparent h.2 s hs
end

/-- Where there is no deviation in a whole, there is none at the foot of a path. -/
theorem deviation?_foot {roots : KindSet} {s : Subtree}
    (h : (path.fill s).deviation? g roots = none) :
    s.deviation? g (path.expected g roots) = none := by
  induction path generalizing s with
  | nil => exact h
  | cons f above ih =>
      have hparent := ih h
      rw [Frame.fill, deviation?] at hparent
      split at hparent
      · rw [deviationIn?_append, Option.or_eq_none_iff, deviationIn?, Option.or_eq_none_iff,
          Nat.zero_add] at hparent
        exact hparent.2.1
      · cases hparent

theorem plain_predicates {roots : KindSet} {s p : Subtree}
    (h : s.deviation? .flatSelect roots = none) (hp : p ∈ s.predicates) : p.Plain := by
  obtain ⟨n, hn, hkind, hchild⟩ := mem_predicates.mp hp
  obtain ⟨path, rfl⟩ := exists_path_of_mem_preorder hn
  obtain ⟨f, rfl, hslot⟩ := Subtree.exists_frame hchild
  have hfoot := @deviation?_foot .flatSelect (f :: path) roots p h
  rw [Path.expected, show f.kind = .condition from hkind, hslot] at hfoot
  exact plain_of_deviation? (fun _ hpredicate => hpredicate) hfoot

end Subtree

namespace Tree

variable {c : Contract} {roots : KindSet} {t t' : Tree}

/-- Some predicate of a tree has an operator that cannot be lifted out of it. -/
def Barred (t : Tree) : Prop :=
  (t.subtree t.root).Barred

theorem Intact.barred_of_lift {node : NodeId} {outcome : Lift.Outcome} (h : t.Intact c)
    (hdeviation : t.deviation? .flatSelect roots = some node)
    (hlift : Edit.lift .flatSelect node t = .ok outcome t') (hbarred : t.Barred) : t'.Barred := by
  obtain ⟨s, graves, hholds, hreg, _⟩ := h
  rw [deviation?, hholds.subtree_eq] at hdeviation
  obtain ⟨path, below, rfl, rfl, hclear, _⟩ := Subtree.exists_path_of_deviation hdeviation
  obtain ⟨whole, gone, hwhole, _, hholds'⟩ := hholds.of_lift hlift
  rw [Barred, hholds.subtree_eq] at hbarred
  rw [Barred, hholds'.subtree_eq]
  exact hreg.barred_of_lift hclear hwhole hbarred

theorem Intact.barred_of_settles {outcomes : List Lift.Outcome} {last : Tree} (h : t.Intact c)
    (hsettles : Edit.Settles .flatSelect roots t outcomes (.canonical last))
    (hbarred : t.Barred) : last.Barred := by
  refine (hsettles.keeps (fun t => t.Intact c ∧ t.Barred) ?_ ⟨h, hbarred⟩).2
  intro t t' node outcome ⟨ht, hbarred⟩ hdeviation hlift
  exact ⟨ht.lift hlift, ht.barred_of_lift hdeviation hlift hbarred⟩

/-- No predicate of a normalized tree has an operator in it but connectives and comparisons. And a
tree is not normalized, but refused and left as it was, if one of its predicates has such an
operator anywhere but at its top, where operators stand one upon the other. -/
theorem Reached.normalize_refuses_buried_operators (h : Reached .strict t) (roots : KindSet)
    (budget : Nat) :
    ((∃ p ∈ (t.subtree t.root).predicates, ¬ p.Clears) →
      ∃ obstacle, Edit.normalize .flatSelect roots budget t =
        .error (.nonCanonicalizable obstacle) t) ∧
    ∀ tally t', Edit.normalize .flatSelect roots budget t = .ok tally t' →
      ∀ p ∈ (t'.subtree t'.root).predicates, p.Plain := by
  obtain ⟨s, graves, hholds, _⟩ := id h.intact
  constructor
  · intro hbarred
    cases hrun : Edit.normalize .flatSelect roots budget t with
    | error cause left =>
        obtain rfl := Edit.eq_of_atomically_eq_error hrun
        obtain ⟨obstacle, rfl⟩ := h.intact.obstacle_of_normalize hrun
        exact ⟨obstacle, rfl⟩
    | ok tally t' =>
        obtain ⟨outcomes, last, hsettles, _⟩ :=
          Edit.exists_settles_of_normalize hholds.represents hrun
        obtain ⟨p, hp, hclears⟩ := h.intact.barred_of_settles hsettles hbarred
        exact absurd (.plain (Subtree.plain_predicates hsettles.deviation?_eq_none hp)) hclears
  · intro tally t' hrun p hp
    exact Subtree.plain_predicates (h.intact.deviation?_of_normalize hrun) hp

/-- A rename below a comparison is refused. -/
theorem Reached.normalize_refuses_buried_operators_equals :
    let e := Expr.assign "T" (.condition
      (.op .equals [.rename "a" "b" (.name "x"), .name "y"]) (.input1 "t"))
    ∃ t, ofExpr e = .ok t ∧ (∃ p ∈ (t.subtree t.root).predicates, ¬ p.Clears) ∧
      ∃ obstacle, Edit.normalize .flatSelect (.ofList [.assign]) 10 t =
        .error (.nonCanonicalizable obstacle) t := by
  intro e
  let t := planted e
  have ht : ofExpr e = .ok t := ofExpr_eq_ok.mpr ⟨rfl, rfl⟩
  have hburied : (t.subtree t.root).predicates.any (fun p =>
      p.kind = .equals && p.preorder.any fun n => n.kind = .rename) = true := by decide +kernel
  have hbarred : ∃ p ∈ (t.subtree t.root).predicates, ¬ p.Clears := by
    simp only [List.any_eq_true, Bool.and_eq_true, decide_eq_true_eq] at hburied
    obtain ⟨p, hp, hkind, n, hn, hrename⟩ := hburied
    refine ⟨p, hp, fun hclears => ?_⟩
    have hplain := hclears.plain_of_kind (by rw [hkind]; rfl) n hn
    rw [hrename] at hplain
    exact absurd hplain (by decide)
  have hreached : Reached .strict t := .built ht
  exact ⟨t, ht, hbarred, (hreached.normalize_refuses_buried_operators _ 10).1 hbarred⟩

/-- A rename at the top of a predicate is not refused. It is lifted out of the predicate, and comes
to stand on the condition. -/
theorem normalize_lifts_rename_out_of_predicate :
    let e := Expr.assign "T" (.condition (.rename "a" "b" (.name "x")) (.input1 "t"))
    ∃ t t', ofExpr e = .ok t ∧
      (∃ p ∈ (t.subtree t.root).predicates, p.toExpr = .rename "a" "b" (.name "x")) ∧
      Edit.normalize .flatSelect (.ofList [.assign]) 1 t = .ok ⟨1, 0⟩ t' ∧
      t'.toExpr = .assign "T" (.rename "a" "b" (.condition (.name "x") (.input1 "t"))) := by
  intro e
  let t := planted e
  have hruns : (match Edit.normalize .flatSelect (.ofList [.assign]) 1 t with
      | .ok tally t' => decide (tally = ⟨1, 0⟩ ∧
          t'.toExpr = .assign "T" (.rename "a" "b" (.condition (.name "x") (.input1 "t"))))
      | .error _ _ => false) = true := by decide +kernel
  have htop : (t.subtree t.root).predicates.any (fun p =>
      decide (p.toExpr = .rename "a" "b" (.name "x"))) = true := by decide +kernel
  cases hrun : Edit.normalize .flatSelect (.ofList [.assign]) 1 t with
  | error => simp [hrun] at hruns
  | ok tally t' =>
      rw [hrun] at hruns
      obtain ⟨rfl, hexpr⟩ := of_decide_eq_true hruns
      refine ⟨t, t', ofExpr_eq_ok.mpr ⟨rfl, rfl⟩, ?_, hrun, hexpr⟩
      simpa using htop

end Tree

end FlatSelect
