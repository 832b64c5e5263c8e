import FlatSelect.Proofs.Intact
import FlatSelect.Proofs.Restless
import FlatSelect.Proofs.Steps

/-!
# What normalization does to relations

An operator that can be lifted stands upon a relation and says something about it. An expression
without these operators is the relations themselves, with their branches and in their order
(`Expr.erase`). Whatever the grammar is, lifting changes nothing about them: an operator that
crosses a parent only changes places with it, and one that is absorbed leaves its operand.

Nodes are lost only where an operator is absorbed. It goes with its parameter, unless it is a
condition: that leaves its predicate behind, in a new conjunction. So the nodes of a tree before and
after normalization differ by what the absorbed operators account for
(`Tree.Reached.normalize_keeps_relations`).
-/

namespace FlatSelect

namespace Expr

mutual
/-- An expression without the operators that are stacked upon its relations. Of each of them, what
it stands on is left. -/
def erase : Expr → Expr
  | .node kind value children =>
    match kind.hasOperand, eraseAll children with
    | true, [_, operand] => operand
    | _, below => .node kind value below
/-- Several expressions without such operators. -/
def eraseAll : List Expr → List Expr
  | [] => []
  | e :: es => e.erase :: eraseAll es
end

theorem eraseAll_append (left right : List Expr) :
    eraseAll (left ++ right) = eraseAll left ++ eraseAll right := by
  induction left with
  | nil => rfl
  | cons e rest ih => exact congrArg (e.erase :: ·) ih

end Expr

namespace Kind

/-- The kinds of the nodes that go when an operator is absorbed. A condition leaves its
predicate. -/
def spent : Kind → List Kind
  | condition => [.condition]
  | kind => [kind, .constant]

/-- The kinds of the nodes that come when an operator is absorbed. -/
def brought : Kind → List Kind
  | condition => [.and]
  | _ => []

theorem spent_of_ne {kind : Kind} (h : kind ≠ .condition) : kind.spent = [kind, .constant] := by
  unfold spent
  split
  · contradiction
  · rfl

theorem brought_of_ne {kind : Kind} (h : kind ≠ .condition) : kind.brought = [] := by
  unfold brought
  split
  · contradiction
  · rfl

end Kind

namespace Transfer

variable {fresh : NodeId} {node parent node' parent' : Subtree} {slot : Nat} {rule : Transfer}
  {crossed : Crossed}

/-- A parent that is not stacked upon anything stays as it is, and absorbs nothing. -/
theorem exists_rises_of_cross (hrule : between? node.kind parent.kind = some rule)
    (hparent : parent.kind.hasOperand = false)
    (h : rule.cross fresh node parent slot = .ok crossed) :
    ∃ node', crossed = .rises node' parent := by
  have hmem := mem_table_of_between? hrule
  cases rule with
  | pass =>
      cases h
      exact ⟨_, rfl⟩
  | qualifyRename | qualifyProjection | qualifyCondition =>
      obtain ⟨_, _, h⟩ := exists_of_bind_eq_ok h
      obtain ⟨_, _, h⟩ := exists_of_bind_eq_ok h
      cases h
      exact ⟨_, rfl⟩
  | widenProjection =>
      obtain ⟨_, _, h⟩ := exists_of_bind_eq_ok h
      cases h
      exact ⟨_, rfl⟩
  | _ =>
      simp only [table, List.mem_cons, Prod.mk.injEq, reduceCtorEq, and_false, false_or,
        List.not_mem_nil, or_false, and_true] at hmem
      rw [hmem.2] at hparent
      cases hparent

end Transfer

namespace Subtree

theorem toExprs_append (left right : List (Option Subtree)) :
    toExprs (left ++ right) = toExprs left ++ toExprs right := by
  induction left with
  | nil => rfl
  | cons head rest ih =>
      cases head with
      | none => exact ih
      | some s => exact congrArg (s.toExpr :: ·) ih

end Subtree

/-! ### The relations of a whole -/

/-- What a frame contributes does not depend on what is stacked upon the relation in its slot. -/
theorem Frame.erase_fill_congr (f : Frame) {s s' : Subtree}
    (h : s'.toExpr.erase = s.toExpr.erase) :
    (f.fill (some s')).toExpr.erase = (f.fill (some s)).toExpr.erase := by
  have hall : Expr.eraseAll (Subtree.toExprs (f.before ++ some s' :: f.after)) =
      Expr.eraseAll (Subtree.toExprs (f.before ++ some s :: f.after)) := by
    simp only [Subtree.toExprs_append, Subtree.toExprs, Expr.eraseAll_append, Expr.eraseAll, h]
  simp only [Frame.fill, Subtree.toExpr, Expr.erase, hall]

theorem Path.erase_fill_congr (path : Path) {s s' : Subtree}
    (h : s'.toExpr.erase = s.toExpr.erase) :
    (path.fill s').toExpr.erase = (path.fill s).toExpr.erase := by
  induction path generalizing s s' with
  | nil => exact h
  | cons f above ih => exact ih (f.erase_fill_congr h)

namespace Subtree

variable {c : Contract} {g : Grammar} {fresh : NodeId} {d f : Frame} {above path : Path}
  {s s' below operand node node' parent' whole : Subtree} {rule : Transfer} {kind : Kind}
  {outcome : Lift.Outcome}

theorem Regular.erase_of_operand (h : s.Regular c) (hkind : s.kind.hasOperand = true)
    (hoperand : s.child 1 = some operand) : s.toExpr.erase = operand.toExpr.erase := by
  obtain ⟨first, second, hslots, _⟩ := h.exists_slots (Kind.arity_of_hasOperand hkind)
  obtain ⟨id, kind, value, slots⟩ := s
  obtain rfl : slots = [some first, some second] := hslots
  obtain rfl : second = operand := Option.some.inj hoperand
  have hkind : kind.hasOperand = true := hkind
  simp only [toExpr, toExprs, Expr.erase, Expr.eraseAll, hkind]

/-- Two operators on the same relation. -/
theorem Regular.erase_eq_of_slot (h : s.Regular c) (h' : s'.Regular c)
    (hkind : s.kind.hasOperand = true) (hkind' : s'.kind = s.kind)
    (hslot : s'.slots[1]? = s.slots[1]?) : s'.toExpr.erase = s.toExpr.erase := by
  obtain ⟨first, second, hslots, _⟩ := h.exists_slots (Kind.arity_of_hasOperand hkind)
  have hsecond : s.child 1 = some second := by
    rw [child, hslots]
    rfl
  have hsecond' : s'.child 1 = some second := by
    rw [child, hslot]
    exact hsecond
  rw [h.erase_of_operand hkind hsecond,
    h'.erase_of_operand (hkind'.symm ▸ hkind) hsecond']

namespace Meets

theorem exists_rises {crossed : Crossed} (h : Meets c g fresh d f above below rule crossed)
    (hstacked : f.kind.hasOperand = false) :
    ∃ node', crossed = .rises node' (f.fill (some below)) :=
  @Transfer.exists_rises_of_cross fresh (d.fill none) (f.fill (some below)) f.slot rule crossed
    h.rule_eq hstacked h.cross_eq

theorem erase_before {crossed : Crossed} (h : Meets c g fresh d f above below rule crossed) :
    (f.fill (some (d.fill (some below)))).toExpr.erase =
      (f.fill (some below)).toExpr.erase := by
  refine f.erase_fill_congr (h.regular_operator.erase_of_operand h.hasOperand ?_)
  rw [← h.slot_eq, Frame.child_fill]

theorem erase_rises (h : Meets c g fresh d f above below rule (.rises node' parent')) :
    (hung node' parent' above).toExpr.erase =
      (Path.fill (f :: above) (d.fill (some below))).toExpr.erase := by
  obtain ⟨_, hparent⟩ := h.reworded
  obtain ⟨d', rfl, hd', hkind', hreg'⟩ := h.exists_frame
  have hregular : parent'.Regular c :=
    (regular_congr_blank hparent.blank_eq).mpr h.regular_parent
  have hoperator : (d'.fill (some parent')).Regular c := hreg'.foot
  have hkept : parent'.toExpr.erase = (f.fill (some below)).toExpr.erase := by
    cases hstacked : f.kind.hasOperand with
    | true =>
        exact h.regular_parent.erase_eq_of_slot hregular hstacked hparent.kind_eq
          (hparent.slot_eq (by decide))
    | false =>
        obtain ⟨_, heq⟩ := h.exists_rises hstacked
        cases heq
        rfl
  rw [hung_fill_none hd', Path.fill_cons]
  refine above.erase_fill_congr ?_
  calc (d'.fill (some parent')).toExpr.erase
      = parent'.toExpr.erase :=
        hoperator.erase_of_operand (by rw [Frame.fill_kind, hkind', h.hasOperand])
          (by rw [← hd', Frame.child_fill])
    _ = (f.fill (some below)).toExpr.erase := hkept
    _ = (f.fill (some (d.fill (some below)))).toExpr.erase := h.erase_before.symm

theorem hasOperand_of_absorbed (h : Meets c g fresh d f above below rule (.absorbed parent')) :
    f.kind.hasOperand = true := by
  cases hstacked : f.kind.hasOperand with
  | true => rfl
  | false =>
      obtain ⟨_, heq⟩ := h.exists_rises hstacked
      cases heq

theorem erase_absorbed (h : Meets c g fresh d f above below rule (.absorbed parent')) :
    (Path.fill above parent').toExpr.erase =
      (Path.fill (f :: above) (d.fill (some below))).toExpr.erase := by
  obtain ⟨hkind, hslot⟩ := h.comes.operand_eq
  obtain ⟨hregular, _⟩ := h.regular_absorbed
  refine Path.erase_fill_congr above ?_
  rw [h.erase_before]
  exact h.regular_parent.erase_eq_of_slot hregular h.hasOperand_of_absorbed hkind hslot

end Meets

/-- A lift changes nothing about relations. -/
theorem Regular.erase_of_lift (hreg : (path.fill node).Regular c)
    (hlift : node.lift g fresh path = .ok (outcome, whole)) :
    whole.toExpr.erase = (path.fill node).toExpr.erase := by
  have hkeeps : Keeps c g fresh node.kind path
      (fun s => s.toExpr.erase = (path.fill node).toExpr.erase)
      (fun s => s.toExpr.erase = (path.fill node).toExpr.erase) :=
    ⟨fun _ _ hmeets hkept => hmeets.erase_rises.trans hkept,
      fun _ _ hmeets hkept => hmeets.erase_absorbed.trans hkept⟩
  exact hkeeps.whole_of_lift hlift hreg rfl

/-! ### The nodes of a whole -/

/-- Of an operator, all that is not its operand. -/
theorem Regular.count_operator (h : (d.fill (some below)).Regular c) (hd : d.slot = 1)
    (hkind : d.kind.hasOperand = true) (marked : Kind → Bool) :
    ∃ first, (d.fill none).child 0 = some first ∧
      (d.fill none).count marked = (if marked d.kind then 1 else 0) + first.count marked ∧
      (d.kind ≠ .condition → first.count marked = if marked .constant then 1 else 0) := by
  obtain ⟨first, hbefore, hafter, hfirst, hconstant⟩ := h.exists_parameter hd hkind
  refine ⟨first, ?_, ?_, ?_⟩
  · rw [child, Frame.fill_slots, hbefore]
    rfl
  · rw [Frame.count_fill_none, Frame.count, hbefore, hafter]
    rfl
  · intro hne
    have hleaf := hconstant hne
    have hslots := hfirst.slots_of_constant hleaf
    obtain ⟨_, _, _, _⟩ := first
    obtain rfl := hleaf
    obtain rfl := hslots
    rfl

theorem Meets.count_absorbed (h : Meets c g fresh d f above below rule (.absorbed parent'))
    (marked : Kind → Bool) :
    (f.fill (some (d.fill (some below)))).count marked + d.kind.brought.countP marked =
      parent'.count marked + d.kind.spent.countP marked := by
  obtain ⟨first, hfirst, hoperator, hleaf⟩ :=
    h.regular_operator.count_operator h.slot_eq h.hasOperand marked
  have hbefore : (f.fill (some (d.fill (some below)))).count marked =
      (f.fill (some below)).count marked + (d.fill none).count marked := by
    simp only [Frame.count_fill, Frame.count_fill_none]
    omega
  have hcondition := @eq_conjoinConditions_of_absorbed rule fresh (d.fill none)
    (f.fill (some below)) parent' f.slot
  cases h.comes with
  | absorbed hreworded hconjoin =>
      have hne : d.kind ≠ .condition :=
        fun hkind => hconjoin (hcondition hkind h.rule_eq h.cross_eq)
      rw [hbefore, hoperator, hleaf hne, count_eq_of_blank_eq hreworded.blank_eq,
        Kind.spent_of_ne hne, Kind.brought_of_ne hne]
      simp only [List.countP_cons, List.countP_nil]
      omega
  | @conjoined outer inner houter hinner =>
      obtain rfl : inner = first := Option.some.inj (hinner.symm.trans hfirst)
      obtain ⟨hkind, _⟩ := Transfer.condition_of_conjoinConditions h.rule_eq
      have hboth := count_setChild_some marked houter
        (.node fresh .and none [some outer, some inner])
      have hand : (Subtree.node fresh .and none [some outer, some inner]).count marked =
          (if marked .and then 1 else 0) + outer.count marked + inner.count marked := by
        simp only [count, countIn]
        omega
      rw [hbefore, hoperator, hkind]
      simp only [Kind.spent, Kind.brought, List.countP_cons, List.countP_nil]
      omega

theorem Meets.count_rises (h : Meets c g fresh d f above below rule (.rises node' parent'))
    (marked : Kind → Bool) : (hung node' parent' above).count marked =
      (Path.fill (f :: above) (d.fill (some below))).count marked := by
  obtain ⟨hnode, hparent⟩ := h.reworded
  rw [← hung_fill_none h.slot_eq]
  exact (hung_rises (open_fill_none h.slot_eq) hnode hparent).1 marked

/-- A lift loses the nodes of an operator that is absorbed, and no others. -/
theorem Regular.count_of_lift (hreg : (path.fill node).Regular c)
    (hlift : node.lift g fresh path = .ok (outcome, whole)) (marked : Kind → Bool) :
    outcome.Ends (whole.count marked = (path.fill node).count marked)
      (node.kind.hasOperand = true ∧
        (path.fill node).count marked + node.kind.brought.countP marked =
          whole.count marked + node.kind.spent.countP marked) := by
  have hkeeps : Keeps c g fresh node.kind path
      (fun s => s.count marked = (path.fill node).count marked)
      (fun s => node.kind.hasOperand = true ∧
        (path.fill node).count marked + node.kind.brought.countP marked =
          s.count marked + node.kind.spent.countP marked) := by
    constructor
    case rises =>
      intro _ _ _ _ _ _ _ _ _ hmeets hkept
      exact (hmeets.count_rises marked).trans hkept
    case absorbs =>
      intro d f above below parent' rule hkind _ hmeets hkept
      refine ⟨hkind ▸ hmeets.hasOperand, ?_⟩
      have habsorbed := hmeets.count_absorbed marked
      have hpath := count_path marked above parent' (f.fill (some (d.fill (some below))))
      rw [hkind] at habsorbed
      rw [Path.fill_cons] at hkept
      omega
  exact hkeeps.of_lift hlift hreg rfl

mutual
theorem length_preorder : ∀ s : Subtree, s.preorder.length = s.count fun _ => true
  | .node _ _ _ slots => by
    rw [preorder, List.length_cons, count, length_preorderAll slots]
    exact Nat.add_comm _ _
theorem length_preorderAll : ∀ slots, (preorderAll slots).length = countIn (fun _ => true) slots
  | [] => rfl
  | none :: rest => length_preorderAll rest
  | some s :: rest => by
    rw [preorderAll, List.length_append, countIn, length_preorder s, length_preorderAll rest]
end

end Subtree

theorem Tree.count_eq (t : Tree) : t.count = t.toExpr.count fun _ => true := by
  rw [count, preorder, Subtree.ids, List.length_map, Subtree.length_preorder,
    ← Subtree.count_toExpr]
  rfl

/-! ### The nodes that a run accounts for -/

namespace Expr

/-- One expression comes of another one with the same relations when operators of `kinds` are
absorbed. -/
structure Spends (kinds : List Kind) (e e' : Expr) : Prop where
  erase_eq : e'.erase = e.erase
  hasOperand : ∀ kind ∈ kinds, kind.hasOperand = true
  count_eq (marked : Kind → Bool) :
    e.count marked + (kinds.flatMap Kind.brought).countP marked =
      e'.count marked + (kinds.flatMap Kind.spent).countP marked

variable {kinds kinds' : List Kind} {e e' e'' : Expr}

theorem Spends.refl (e : Expr) : Spends [] e e :=
  ⟨rfl, fun _ h => absurd h List.not_mem_nil, fun _ => rfl⟩

theorem Spends.trans (h : Spends kinds e e') (h' : Spends kinds' e' e'') :
    Spends (kinds ++ kinds') e e'' where
  erase_eq := h'.erase_eq.trans h.erase_eq
  hasOperand kind hmem := (List.mem_append.mp hmem).elim (h.hasOperand kind) (h'.hasOperand kind)
  count_eq marked := by
    have hfirst := h.count_eq marked
    have hsecond := h'.count_eq marked
    simp only [List.flatMap_append, List.countP_append]
    omega

end Expr

/-- A condition is replaced by a conjunction, and all else that is absorbed is lost with its
parameter. -/
theorem Kind.length_spent (kinds : List Kind) : (kinds.flatMap spent).length =
    (kinds.flatMap brought).length + 2 * kinds.countP (· ≠ .condition) := by
  induction kinds with
  | nil => rfl
  | cons kind rest ih =>
      rw [List.flatMap_cons, List.flatMap_cons, List.length_append, List.length_append,
        List.countP_cons, ih]
      by_cases h : kind = .condition
      · subst h
        simp [spent, brought]
        omega
      · simp [spent_of_ne h, brought_of_ne h, h]
        omega

namespace Tree

variable {c : Contract} {g : Grammar} {roots : KindSet} {t t' : Tree} {node : NodeId}
  {outcome : Lift.Outcome}

/-- A lift keeps relations, and spends the nodes of the operator if that is absorbed. -/
theorem Intact.spends_of_lift (h : t.Intact c) (hlift : Edit.lift g node t = .ok outcome t') :
    outcome.Ends (Expr.Spends [] t.toExpr t'.toExpr)
      (Expr.Spends [t.kind node] t.toExpr t'.toExpr) := by
  rcases h.lift_cases hlift with
    ⟨path, s, whole, _, _, rfl, hholds, hreg, hwhole, hholds', _⟩ | ⟨rfl, rfl⟩
  · have herase := hreg.erase_of_lift hwhole
    have hcount := hreg.count_of_lift hwhole
    have hkind : t.kind s.id = s.kind := hholds.represents.kind_foot
    rw [hholds.toExpr_eq, hholds'.toExpr_eq, hkind]
    cases outcome with
    | alreadyLegal | relocated =>
        refine ⟨herase, fun _ hmem => absurd hmem List.not_mem_nil, fun marked => ?_⟩
        rw [Subtree.count_toExpr, Subtree.count_toExpr]
        exact (hcount marked).symm
    | absorbed =>
        refine ⟨herase, ?_, fun marked => ?_⟩
        · intro kind hmem
          rw [List.mem_singleton.mp hmem]
          exact (hcount fun _ => true).1
        · rw [Subtree.count_toExpr, Subtree.count_toExpr, List.flatMap_singleton,
            List.flatMap_singleton]
          exact (hcount marked).2
  · exact .refl _

end Tree

namespace Edit

/-- First deviations are lifted until there is none. The kinds of those that are absorbed are
listed. -/
inductive Absorbs (g : Grammar) (roots : KindSet) : Tree → List Kind → Tree → Prop
  | done {t : Tree} (hdeviation : t.deviation? g roots = none) : Absorbs g roots t [] t
  | relocated {t t' last : Tree} {node : NodeId} {place : Place} {steps : Nat} {kinds : List Kind}
    (hdeviation : t.deviation? g roots = some node)
    (hlift : lift g node t = .ok (.relocated place steps) t')
    (hrest : Absorbs g roots t' kinds last) : Absorbs g roots t kinds last
  | absorbed {t t' last : Tree} {node : NodeId} {steps : Nat} {kinds : List Kind}
    (hdeviation : t.deviation? g roots = some node)
    (hlift : lift g node t = .ok (.absorbed steps) t')
    (hrest : Absorbs g roots t' kinds last) : Absorbs g roots t (t.kind node :: kinds) last

variable {c : Contract} {g : Grammar} {roots : KindSet} {t last : Tree} {kinds : List Kind}

theorem Absorbs.spends (h : Absorbs g roots t kinds last) (ht : t.Intact c) :
    Expr.Spends kinds t.toExpr last.toExpr := by
  induction h with
  | done => exact .refl _
  | relocated _ hlift _ ih => exact (ht.spends_of_lift hlift).trans (ih (ht.lift hlift))
  | absorbed _ hlift _ ih => exact (ht.spends_of_lift hlift).trans (ih (ht.lift hlift))

/-- A run that comes to an end has a list of what it absorbed, and counts these. -/
theorem Settles.exists_absorbs {outcomes : List Lift.Outcome} (ht : t.Intact c)
    (h : Settles g roots t outcomes (.canonical last)) (tally : Tally) :
    ∃ kinds, Absorbs g roots t kinds last ∧
      (outcomes.foldl Tally.count tally).absorbed = tally.absorbed + kinds.length := by
  generalize hending : Ending.canonical last = ending at h
  induction h generalizing tally with
  | canonical hdeviation =>
      cases hending
      exact ⟨[], .done hdeviation, rfl⟩
  | stuck => cases hending
  | @lift t t' node outcome outcomes ending hdeviation hlift _ ih =>
      obtain ⟨kinds, habsorbs, hcount⟩ := ih (ht.lift hlift) (tally.count outcome) hending
      rw [List.foldl_cons, hcount]
      cases outcome with
      | alreadyLegal =>
          obtain ⟨s, graves, hholds, _⟩ := ht
          exact absurd rfl (hholds.represents.lifts_of_deviation hdeviation hlift).2
      | relocated => exact ⟨kinds, .relocated hdeviation hlift habsorbs, rfl⟩
      | absorbed =>
          refine ⟨t.kind node :: kinds, .absorbed hdeviation hlift habsorbs, ?_⟩
          change tally.absorbed + 1 + kinds.length = tally.absorbed + (kinds.length + 1)
          omega

end Edit

namespace Tree

variable {c : Contract} {g : Grammar} {roots : KindSet} {t t' : Tree}

/-- Normalization keeps the relations of a tree, with their branches and in their order. What it
does to the number of nodes, of any kinds, is what the absorbed operators account for: each goes
with its parameter, but a condition leaves its predicate, and a conjunction comes in its place. So a
tree gets smaller by two nodes for every absorbed operator other than a condition, and never
larger. -/
theorem Reached.normalize_keeps_relations {budget : Nat} {tally : Tally} (h : Reached c t)
    (hrun : Edit.normalize g roots budget t = .ok tally t') :
    t'.toExpr.erase = t.toExpr.erase ∧
    ∃ kinds last, Edit.Absorbs g roots t kinds last ∧ t' = last.compact ∧
      kinds.length = tally.absorbed ∧ (∀ kind ∈ kinds, kind.hasOperand = true) ∧
      (∀ marked, t.toExpr.count marked + (kinds.flatMap Kind.brought).countP marked =
        t'.toExpr.count marked + (kinds.flatMap Kind.spent).countP marked) ∧
      t.count = t'.count + 2 * kinds.countP (· ≠ .condition) ∧ t'.count ≤ t.count := by
  obtain ⟨s, graves, hholds, _⟩ := id h.intact
  obtain ⟨outcomes, last, hsettles, _, rfl, rfl⟩ :=
    Edit.exists_settles_of_normalize hholds.represents hrun
  obtain ⟨kinds, habsorbs, hcount⟩ := hsettles.exists_absorbs h.intact .zero
  have hsame : last.compact.toExpr = last.toExpr := (h.intact.of_settles hsettles).toExpr_compact
  obtain ⟨herase, hoperand, hmarked⟩ := habsorbs.spends h.intact
  rw [← hsame] at herase hmarked
  have hsize : t.count = last.compact.count + 2 * kinds.countP (· ≠ .condition) := by
    have hall := hmarked fun _ => true
    rw [List.countP_true, Kind.length_spent, ← count_eq, ← count_eq] at hall
    omega
  refine ⟨herase, kinds, last, habsorbs, rfl, ?_, hoperand, hmarked, hsize, by omega⟩
  rw [hcount]
  exact (Nat.zero_add _).symm

/-- Of two conditions one is made, and a derived column is absorbed that no list selects. Twelve
nodes are left with ten. -/
theorem Reached.normalize_keeps_relations_conditions :
    let e := Expr.assign "T" (.projection ["a"] (.condition (.name "p") (.condition (.name "q")
      (.extraColumn "d" "b" (.input1 "t")))))
    ∃ t t', ofExpr e = .ok t ∧
      Edit.normalize .flatSelect (.ofList [.assign]) 2 t = .ok ⟨2, 2⟩ t' ∧
      t'.toExpr.erase = .assign "T" (.input1 "t") ∧ t.count = 12 ∧ t'.count = 10 ∧
      ∃ kinds last, Edit.Absorbs .flatSelect (.ofList [.assign]) t kinds last ∧
        t.count = t'.count + 2 * kinds.countP (· ≠ .condition) := by
  intro e
  let t := planted e
  have ht : ofExpr e = .ok t := ofExpr_eq_ok.mpr ⟨rfl, rfl⟩
  have hruns : (match Edit.normalize .flatSelect (.ofList [.assign]) 2 t with
      | .ok tally t' => decide (tally = ⟨2, 2⟩ ∧ t'.count = 10)
      | .error _ _ => false) = true := by decide +kernel
  cases hrun : Edit.normalize .flatSelect (.ofList [.assign]) 2 t with
  | error => simp [hrun] at hruns
  | ok tally t' =>
      rw [hrun] at hruns
      obtain ⟨rfl, hcount'⟩ := of_decide_eq_true hruns
      have hreached : Reached .strict t := .built ht
      obtain ⟨herase, kinds, last, habsorbs, _, _, _, _, hcount, _⟩ :=
        hreached.normalize_keeps_relations hrun
      have hbefore : t.toExpr.erase = .assign "T" (.input1 "t") := by decide +kernel
      exact ⟨t, t', ht, hrun, herase.trans hbefore, by decide +kernel, hcount', kinds, last,
        habsorbs, hcount⟩

end Tree

end FlatSelect
