import FlatSelect.Pipeline
import FlatSelect.Proofs.Predicates
import FlatSelect.Proofs.Reading

/-!
# What can be printed

The grammar goes by kinds alone, and so it lets constants stand where a statement quotes a name:
the leaves of predicates, the bare branches of joins, and the relations of the others. A tree is
printable if all of these hold names. Clause by clause, a regular stack that conforms to the grammar
is read if what the clause quotes are names, and is found to be malformed otherwise
(`Subtree.MalformedUnless`). So whether a tree that has come of an expression has a statement is
settled by three things that can be told beforehand, and which of them is missing is told by the
error (`Tree.Reached.sql_outcomes`).
-/

namespace FlatSelect

variable {α β : Type}

/-- A reading succeeds where `p` holds, and otherwise finds the tree malformed. -/
def MalformedUnless (p : Prop) (reading : Except Error α) : Prop :=
  (p → ∃ a, reading = .ok a) ∧ (¬ p → ∃ cause, reading = .error (.malformedTree cause))

namespace MalformedUnless

variable {p q : Prop} {r : Except Error α}

theorem ok (a : α) (hp : p) : MalformedUnless p (.ok a : Except Error α) :=
  ⟨fun _ => ⟨a, rfl⟩, fun h => absurd hp h⟩

theorem error (cause : Malformation) (hp : ¬ p) :
    MalformedUnless p (.error (.malformedTree cause) : Except Error α) :=
  ⟨fun h => absurd h hp, fun _ => ⟨cause, rfl⟩⟩

/-- What is read second matters where the first reading has succeeded. -/
theorem bind {f : α → Except Error β} (hr : MalformedUnless p r)
    (hf : ∀ a, r = .ok a → MalformedUnless q (f a)) : MalformedUnless (p ∧ q) (r >>= f) := by
  by_cases hp : p
  · obtain ⟨a, rfl⟩ := hr.1 hp
    obtain ⟨hok, herror⟩ := hf a rfl
    exact ⟨fun h => hok h.2, fun h => herror fun hq => h ⟨hp, hq⟩⟩
  · obtain ⟨cause, rfl⟩ := hr.2 hp
    exact error cause fun h => hp h.1

theorem map (f : α → β) (hr : MalformedUnless p r) : MalformedUnless p (r.map f) := by
  constructor
  · intro hp
    obtain ⟨a, rfl⟩ := hr.1 hp
    exact ⟨f a, rfl⟩
  · intro hp
    obtain ⟨cause, rfl⟩ := hr.2 hp
    exact ⟨cause, rfl⟩

end MalformedUnless

namespace Subtree

/-- If this is a constant, then it holds a name. -/
def Named (s : Subtree) : Prop :=
  s.kind = .constant → ∃ text, s.value = some (.name text)

/-- What the clause of a node quotes are names: the leaves of the predicate of a condition, the bare
branches of a join, and the relation of any other branch. -/
structure QuotesNames (s : Subtree) : Prop where
  predicate : s.kind = .condition → ∀ p, s.child 0 = some p → ∀ leaf ∈ p.preorder, leaf.Named
  branch : s.kind = .input2 → ∀ slot b, s.child slot = some b → b.Named
  relation : s.kind = .renameAll → ∀ r, s.child 1 = some r → r.Named

/-- Every clause quotes names. -/
def Printable (s : Subtree) : Prop :=
  ∀ n ∈ s.preorder, n.QuotesNames

variable {s : Subtree} {kind : Kind} {expected next : KindSet}

theorem printable_iff :
    s.Printable ↔ s.QuotesNames ∧ ∀ child, some child ∈ s.slots → child.Printable :=
  forall_mem_preorder

/-- Only conditions, joins and their branches quote constants of no particular form. -/
theorem quotesNames_of_kind (hcondition : s.kind ≠ .condition) (hjoin : s.kind ≠ .input2)
    (hbranch : s.kind ≠ .renameAll) : s.QuotesNames :=
  ⟨fun h => absurd h hcondition, fun h => absurd h hjoin, fun h => absurd h hbranch⟩

/-- Nothing in a predicate quotes anything on its own. -/
theorem Plain.printable (h : s.Plain) : s.Printable := by
  intro n hn
  have hkind := h n hn
  refine quotesNames_of_kind ?_ ?_ ?_ <;>
  · intro hne
    rw [hne] at hkind
    cases hkind

/-- What is read off the value of a constant, and takes names alone, succeeds if the constant is
named. -/
theorem Regular.malformedUnless_named {r : Except Error α} (h : s.Regular .strict)
    (hkind : s.kind = .constant) (hok : ∀ text, s.value = some (.name text) → ∃ a, r = .ok a)
    (herror : ∀ v, s.value = some v → v.asName? = none →
      ∃ cause, r = .error (.malformedTree cause)) : MalformedUnless s.Named r := by
  obtain ⟨v, hv⟩ := Option.isSome_iff_exists.mp (h.proper.value_iff.mpr hkind)
  cases hname : v.asName? with
  | some text =>
      obtain rfl : v = .name text := by cases v <;> cases hname; rfl
      obtain ⟨a, rfl⟩ := hok text hv
      exact .ok a fun _ => ⟨text, hv⟩
  | none =>
      obtain ⟨cause, rfl⟩ := herror v hv hname
      refine .error cause fun hnamed => ?_
      obtain ⟨text, htext⟩ := hnamed hkind
      rw [hv] at htext
      cases htext
      cases hname

theorem nameAt_malformedUnless {c : Subtree} {slot : Nat} (hchild : s.child slot = some c)
    (hc : c.Regular .strict) (hkind : c.kind = .constant) :
    MalformedUnless c.Named (s.nameAt slot) := by
  rw [nameAt, slotValue, hchild, Option.bind_some]
  refine hc.malformedUnless_named hkind (fun text hv => ⟨text, by rw [hv]⟩) fun v hv hname => ?_
  rw [hv]
  cases v <;> first | exact ⟨_, rfl⟩ | cases hname

/-! ### Standing where the grammar wants it -/

theorem deviation?_child {g : Grammar} {slot : Nat} {c : Subtree}
    (h : s.deviation? g expected = none) (hchild : s.child slot = some c) :
    c.deviation? g (g.childKinds s.kind slot) = none := by
  obtain ⟨f, rfl, rfl⟩ := exists_frame hchild
  exact @deviation?_foot g [f] expected c h

/-- A regular subtree that conforms to the grammar of flat selects where one of the `expected` kinds
has to stand. -/
structure Stands (expected : KindSet) (s : Subtree) : Prop where
  regular : s.Regular .strict
  conforms : s.deviation? .flatSelect expected = none

namespace Stands

theorem contains (h : s.Stands expected) : expected.contains s.kind = true :=
  contains_of_deviation? h.conforms

theorem narrow (h : s.Stands expected) (hnext : next.contains s.kind = true) : s.Stands next :=
  ⟨h.regular, deviation?_of_contains h.conforms hnext⟩

/-- A node of two children stands on two subtrees that stand where they are. -/
theorem exists_slots (h : s.Stands expected) (harity : s.kind.arity = 2) :
    ∃ first second, s.slots = [some first, some second] ∧
      first.Stands (Grammar.flatSelect.childKinds s.kind 0) ∧
      second.Stands (Grammar.flatSelect.childKinds s.kind 1) := by
  obtain ⟨first, second, hslots, hfirst, hsecond, _⟩ := h.regular.exists_slots harity
  refine ⟨first, second, hslots, ⟨hfirst, deviation?_child h.conforms ?_⟩,
    ⟨hsecond, deviation?_child h.conforms ?_⟩⟩ <;> simp [child, hslots]

/-- Queries, relations and branches keep names. -/
theorem exists_nameAt (h : s.Stands expected)
    (hkind : s.kind = .assign ∨ s.kind = .input1 ∨ s.kind = .renameAll) :
    ∃ text, s.nameAt 0 = .ok text := by
  have hkeeps : s.kind.hasParameter = true := by
    rcases hkind with hkind | hkind | hkind <;> rw [hkind] <;> rfl
  obtain ⟨v, hv, hadmits⟩ := h.regular.proper.parameter hkeeps
  cases v with
  | name text => exact ⟨text, by rw [nameAt, hv]⟩
  | columns | rename | derived =>
      rcases hkind with hkind | hkind | hkind <;> rw [hkind] at hadmits <;> cases hadmits

end Stands

/-! ### Predicates -/

theorem predicateText_binary {id : NodeId} {value : Option Value} {left right : Subtree}
    {operator : String} (hoperator : kind.sqlOperator = some operator) :
    (Subtree.node id kind value [some left, some right]).predicateText = (do
      let leftText ← left.predicateText
      let rightText ← right.predicateText
      return Predicate.application operator leftText rightText) := by
  cases kind <;> cases hoperator <;> rfl

/-- What may stand in a predicate and is neither a leaf nor a negation is printed infix. -/
theorem exists_sqlOperator (hkind : KindSet.predicates.contains kind = true)
    (hleaf : kind ≠ .constant) (hnot : kind ≠ .not) :
    kind.arity = 2 ∧ ∃ operator, kind.sqlOperator = some operator := by
  cases kind <;> first
    | exact ⟨rfl, _, rfl⟩
    | exact absurd rfl hleaf
    | exact absurd rfl hnot
    | cases hkind

mutual
/-- A predicate has a text if all of its leaves hold names. -/
theorem predicateText_malformedUnless : ∀ {s : Subtree}, s.Regular .strict → s.Plain →
    MalformedUnless (∀ leaf ∈ s.preorder, leaf.Named) s.predicateText
  | .node id kind value slots, hreg, hplain => by
    have hslots := predicateText_malformedUnless_slots hreg.2 (plain_iff.mp hplain).2
    have hkind : KindSet.predicates.contains kind = true := (plain_iff.mp hplain).1
    have hlength : slots.length = kind.arity := hreg.proper.length_eq
    rw [forall_mem_preorder]
    by_cases hleaf : kind = .constant
    · subst hleaf
      obtain rfl := List.length_eq_zero_iff.mp hlength
      have hleaf : ∀ child, some child ∈ ([] : List (Option Subtree)) →
          ∀ n ∈ child.preorder, n.Named := fun _ h => absurd h List.not_mem_nil
      rw [Subtree.slots, and_iff_left hleaf]
      refine hreg.malformedUnless_named rfl ?_ ?_
      · rintro text ⟨⟩
        exact ⟨_, rfl⟩
      · rintro v ⟨⟩ hname
        cases v <;> first | exact ⟨_, rfl⟩ | cases hname
    · have hnode : (Subtree.node id kind value slots).Named := fun h => absurd h hleaf
      by_cases hnot : kind = .not
      · subst hnot
        match slots, hlength, hreg.2, hslots with
        | [some operand], _, _, hslots =>
          have htext := (hslots operand List.mem_cons_self).map Predicate.negation
          simpa [hnode, Subtree.slots, predicateText] using htext
      · obtain ⟨harity, operator, hoperator⟩ := exists_sqlOperator hkind hleaf hnot
        obtain ⟨left, right, rfl, _⟩ := hreg.exists_slots harity
        have htext := (hslots left List.mem_cons_self).bind fun leftText _ =>
          (hslots right (by simp)).map (Predicate.application operator leftText)
        simp only [hnode, Subtree.slots, true_and, List.mem_cons, Option.some.injEq,
          List.not_mem_nil, or_false, forall_eq_or_imp, forall_eq]
        rw [predicateText_binary hoperator]
        exact htext
theorem predicateText_malformedUnless_slots : ∀ {slots : List (Option Subtree)},
    RegularAll .strict slots → (∀ s, some s ∈ slots → s.Plain) → ∀ s, some s ∈ slots →
      MalformedUnless (∀ leaf ∈ s.preorder, leaf.Named) s.predicateText
  | [], _, _ => fun _ hs => absurd hs List.not_mem_nil
  | none :: _, hreg, _ => hreg.elim
  | some first :: rest, hreg, hplain => by
    intro s hs
    rcases List.mem_cons.mp hs with heq | hs
    · cases heq
      exact predicateText_malformedUnless hreg.1 (hplain _ List.mem_cons_self)
    · exact predicateText_malformedUnless_slots hreg.2
        (fun s hs => hplain s (List.mem_cons_of_mem _ hs)) s hs
end

/-! ### Relations -/

namespace Stands

theorem exists_of_mem {child : Subtree} (h : s.Stands expected) (hchild : some child ∈ s.slots) :
    ∃ slot, slot < s.kind.arity ∧
      child.Stands (Grammar.flatSelect.childKinds s.kind slot) := by
  obtain ⟨slot, hlt, hslot⟩ := List.mem_iff_getElem.mp hchild
  have hget : s.child slot = some child := by
    rw [Subtree.child, List.getElem?_eq_getElem hlt, hslot]
    rfl
  exact ⟨slot, h.regular.proper.length_eq ▸ hlt, (regular_iff.mp h.regular).2.of_mem hchild,
    deviation?_child h.conforms hget⟩

theorem constant_of_constants (h : s.Stands .constants) : s.kind = .constant := by
  simpa [KindSet.constants] using h.contains

theorem constant_or_input1 (h : s.Stands (.ofList [.constant, .input1])) :
    s.kind = .constant ∨ s.kind = .input1 := by
  simpa using h.contains

theorem printable_of_constant (h : s.Stands expected) (hkind : s.kind = .constant) :
    s.Printable := by
  refine printable_iff.mpr ⟨quotesNames_of_kind ?_ ?_ ?_, ?_⟩
  case refine_4 => simp [h.regular.slots_of_constant hkind]
  all_goals simp [hkind]

theorem printable_of_input1 (h : s.Stands expected) (hkind : s.kind = .input1) :
    s.Printable := by
  refine printable_iff.mpr ⟨quotesNames_of_kind ?_ ?_ ?_, ?_⟩
  case refine_4 =>
    intro child hchild
    obtain ⟨slot, hslot, hstands⟩ := h.exists_of_mem hchild
    rw [hkind] at hslot hstands
    obtain rfl : slot = 0 := Nat.lt_one_iff.mp hslot
    exact hstands.printable_of_constant (constant_of_constants hstands)
  all_goals simp [hkind]

/-- An aliased branch is printable if the relation is, should that be a constant. -/
theorem printable_renameAll {asName relation : Subtree} (hkind : s.kind = .renameAll)
    (hslots : s.slots = [some asName, some relation]) (hasName : asName.Stands .constants)
    (hrelation : relation.Stands (.ofList [.constant, .input1])) :
    s.Printable ↔ relation.Named := by
  have halias : asName.Printable := hasName.printable_of_constant hasName.constant_of_constants
  have hoperand : relation.Printable := by
    rcases hrelation.constant_or_input1 with hconstant | hinput
    · exact hrelation.printable_of_constant hconstant
    · exact hrelation.printable_of_input1 hinput
  have hchild : s.child 1 = some relation := by simp [child, hslots]
  rw [printable_iff]
  constructor
  · intro hquotes
    exact hquotes.1.relation hkind _ hchild
  · intro hnamed
    refine ⟨⟨by simp [hkind], by simp [hkind], ?_⟩, by simp [hslots, halias, hoperand]⟩
    rintro - r hr
    rw [hchild] at hr
    cases hr
    exact hnamed

/-- A branch of a join can be read if it quotes names. -/
theorem joinBranch_malformedUnless (h : s.Stands Grammar.branches) :
    MalformedUnless (s.Named ∧ s.Printable) s.joinBranch := by
  have hcontains := h.contains
  simp only [Grammar.branches, KindSet.contains_ofList, List.contains_cons, List.contains_nil,
    Bool.or_false, Bool.or_eq_true, beq_iff_eq] at hcontains
  rcases hcontains with hkind | hkind
  · obtain ⟨asName, relation, hslots, hasName, hrelation⟩ := h.exists_slots (by rw [hkind]; rfl)
    rw [hkind] at hasName hrelation
    have hnamed : s.Named := fun hconstant => by simp [hkind] at hconstant
    have hoperand : s.operand = .ok relation := by simp [operand, child, hslots]
    obtain ⟨aliased, haliased⟩ := h.exists_nameAt (.inr (.inr hkind))
    rw [printable_renameAll hkind hslots hasName hrelation, and_iff_right hnamed, joinBranch, hkind]
    simp only [haliased, hoperand, bind, Except.bind]
    rcases constant_or_input1 hrelation with hconstant | hinput
    · rw [hconstant]
      exact (nameAt_malformedUnless (by simp [child, hslots]) hrelation.regular hconstant).map _
    · obtain ⟨text, htext⟩ := exists_nameAt hrelation (.inr (.inl hinput))
      simp only [hinput, htext]
      exact .ok _ fun hconstant => by simp [hinput] at hconstant
  · rw [and_iff_left (h.printable_of_constant hkind), joinBranch, hkind]
    refine h.regular.malformedUnless_named hkind (fun text hv => ⟨⟨text, none⟩, ?_⟩)
      fun v hv hname => ⟨.branchNotName, ?_⟩
    · simp only [hv, Option.bind_some, Value.asName?]
    · simp only [hv, Option.bind_some, hname]

/-- Where the rows come from can be read if the branches quote names. -/
theorem relation_malformedUnless (h : s.Stands .inputs) :
    MalformedUnless s.Printable s.relation := by
  have hcontains : s.kind = .input1 ∨ s.kind = .input2 := by
    simpa [KindSet.inputs] using h.contains
  rcases hcontains with hkind | hkind
  · obtain ⟨text, htext⟩ := h.exists_nameAt (.inr (.inl hkind))
    rw [Subtree.relation, hkind, htext]
    exact .ok _ (h.printable_of_input1 hkind)
  · obtain ⟨left, right, hslots, hleft, hright⟩ := h.exists_slots (by rw [hkind]; rfl)
    rw [hkind] at hleft hright
    have hbranches : s.Printable ↔
        (left.Named ∧ left.Printable) ∧ right.Named ∧ right.Printable := by
      rw [printable_iff]
      constructor
      · rintro ⟨hquotes, hall⟩
        have hnamed := hquotes.branch hkind
        exact ⟨⟨hnamed 0 left (by simp [child, hslots]), hall left (by simp [hslots])⟩,
          hnamed 1 right (by simp [child, hslots]), hall right (by simp [hslots])⟩
      · rintro ⟨⟨hleft, hleft'⟩, hright, hright'⟩
        refine ⟨⟨by simp [hkind], ?_, by simp [hkind]⟩, by simp [hslots, hleft', hright']⟩
        intro _ slot b hb
        have hmem : some b ∈ s.slots := List.mem_of_getElem? (Option.join_eq_some_iff.mp hb)
        simp only [hslots, List.mem_cons, Option.some.injEq, List.not_mem_nil, or_false] at hmem
        rcases hmem with rfl | rfl
        · exact hleft
        · exact hright
    have hread : s.relation = (do
        let l ← left.joinBranch
        right.joinBranch.map (Relation.join l)) := by
      rw [Subtree.relation, hkind]
      simp only [joinBranchAt, child, hslots, List.getElem?_cons_zero, List.getElem?_cons_succ,
        Option.join_some]
      rfl
    rw [hbranches, hread]
    exact (joinBranch_malformedUnless hleft).bind fun l _ =>
      (joinBranch_malformedUnless hright).map _

end Stands

/-! ### Stacks -/

namespace Stands

/-- A node with a parameter and an operand is printable if the operand is, branches apart. -/
theorem printable_operand (h : s.Stands expected) (harity : s.kind.arity = 2)
    (hkeeps : s.kind.hasParameter = true) (hbranch : s.kind ≠ .renameAll) :
    ∃ first below, s.slots = [some first, some below] ∧ s.operand = .ok below ∧
      below.Stands (Grammar.flatSelect.childKinds s.kind 1) ∧
      (s.Printable ↔ below.Printable) := by
  obtain ⟨first, below, hslots, hfirst, hbelow⟩ := h.exists_slots harity
  obtain ⟨v, hv, _⟩ := h.regular.proper.parameter hkeeps
  have hconstant : first.Printable := by
    refine hfirst.printable_of_constant (hfirst.regular.proper.value_iff.mp ?_)
    rw [slotValue, child, hslots] at hv
    exact Option.isSome_iff_exists.mpr ⟨v, hv⟩
  have hquotes : s.QuotesNames := by
    refine quotesNames_of_kind ?_ ?_ hbranch <;>
    · intro hne
      rw [hne] at hkeeps
      cases hkeeps
  refine ⟨first, below, hslots, by simp [operand, child, hslots], hbelow, ?_⟩
  rw [printable_iff, and_iff_right hquotes]
  simp [hslots, hconstant]

/-- Peeling the operators of one kind off a stack succeeds, and leaves what may stand below them.
What is peeled off quotes nothing. -/
theorem exists_peel {clause : Subtree → Except Error α} (harity : kind.arity = 2)
    (hkeeps : kind.hasParameter = true) (hbranch : kind ≠ .renameAll)
    (hclause : ∀ s : Subtree, s.Readable → s.kind = kind → ∃ a, clause s = .ok a)
    (hstays : ∀ k, (Grammar.flatSelect.childKinds kind 1).contains k = true →
      expected.contains k = true)
    (hnext : ∀ k, expected.contains k = true → k ≠ kind → next.contains k = true) :
    ∀ {s : Subtree}, s.Stands expected → ∃ clauses below,
      s.peel kind clause = .ok (clauses, below) ∧ below.Stands next ∧
        (s.Printable ↔ below.Printable)
  | .node id top value slots, h => by
    by_cases htop : kind = top
    · subst htop
      obtain ⟨first, below, hslots, hbelow, hstands, hprintable⟩ :=
        h.printable_operand harity hkeeps hbranch
      obtain rfl : slots = [some first, some below] := hslots
      obtain ⟨a, ha⟩ := hclause _ h.regular.readable rfl
      obtain ⟨clauses, rest, hpeel, hrest, hiff⟩ := exists_peel harity hkeeps hbranch hclause
        hstays hnext (hstands.narrow (hstays _ hstands.contains))
      refine ⟨a :: clauses, rest, ?_, hrest, hprintable.trans hiff⟩
      have hread := peel_of_operand (show _ = kind from rfl) ha hbelow
      rw [hread, hpeel]
      rfl
    · exact ⟨[], .node id top value slots, by rw [peel, if_neg (Ne.symm htop)],
        h.narrow (hnext top h.contains (Ne.symm htop)), Iff.rfl⟩

theorem exists_peelOne {clause : Subtree → Except Error α} (harity : kind.arity = 2)
    (hkeeps : kind.hasParameter = true) (hbranch : kind ≠ .renameAll)
    (hclause : ∀ s : Subtree, s.Readable → s.kind = kind → ∃ a, clause s = .ok a)
    (hbelow : ∀ k, (Grammar.flatSelect.childKinds kind 1).contains k = true →
      next.contains k = true)
    (hnext : ∀ k, expected.contains k = true → k ≠ kind → next.contains k = true)
    (h : s.Stands expected) : ∃ clauses below, s.peelOne kind clause = .ok (clauses, below) ∧
      below.Stands next ∧ (s.Printable ↔ below.Printable) := by
  by_cases htop : s.kind = kind
  · subst htop
    obtain ⟨_, below, _, hread, hstands, hprintable⟩ := h.printable_operand harity hkeeps hbranch
    obtain ⟨a, ha⟩ := hclause _ h.regular.readable rfl
    refine ⟨some a, below, ?_, hstands.narrow (hbelow _ hstands.contains), hprintable⟩
    rw [peelOne, if_pos rfl, ha, hread]
    rfl
  · exact ⟨none, s, by rw [peelOne, if_neg htop], h.narrow (hnext _ h.contains htop), Iff.rfl⟩

/-- A condition is printable if its predicate has a text and its operand is printable. -/
theorem printable_condition {p below : Subtree} (hkind : s.kind = .condition)
    (hslots : s.slots = [some p, some below]) (hp : p.Plain) :
    s.Printable ↔ (∀ leaf ∈ p.preorder, leaf.Named) ∧ below.Printable := by
  have hchild : s.child 0 = some p := by simp [child, hslots]
  rw [printable_iff]
  constructor
  · rintro ⟨hquotes, hall⟩
    exact ⟨hquotes.predicate hkind p hchild, hall below (by simp [hslots])⟩
  · rintro ⟨hleaves, hbelow⟩
    refine ⟨⟨?_, by simp [hkind], by simp [hkind]⟩, by simp [hslots, hp.printable, hbelow]⟩
    intro _ p' hp'
    rw [hchild] at hp'
    cases hp'
    exact hleaves

/-- The condition that there may be, and where the rows come from. -/
theorem rows_malformedUnless (f : Option String → Relation → β)
    (h : s.Stands Grammar.belowProjection) :
    MalformedUnless s.Printable (do
      let (condition, body) ← s.peelOne .condition conditionText
      let relation ← body.relation
      return f condition relation) := by
  by_cases hkind : s.kind = .condition
  · obtain ⟨p, below, hslots, hp, hbelow⟩ := h.exists_slots (by rw [hkind]; rfl)
    rw [hkind] at hp hbelow
    have hplain : p.Plain := plain_of_deviation? (fun _ hpredicate => hpredicate) hp.conforms
    have htext : s.conditionText = p.predicateText := by simp [conditionText, child, hslots]
    have hoperand : s.operand = .ok below := by simp [operand, child, hslots]
    have hread : (do
        let (condition, body) ← s.peelOne .condition conditionText
        let relation ← body.relation
        return f condition relation) = (do
          let text ← p.predicateText
          below.relation.map (f (some text))) := by
      rw [peelOne, if_pos hkind, htext, hoperand]
      cases p.predicateText <;> rfl
    rw [hread, printable_condition hkind hslots hplain]
    exact (predicateText_malformedUnless hp.regular hplain).bind fun text _ =>
      (relation_malformedUnless hbelow).map _
  · have hinputs : s.Stands .inputs := by
      refine h.narrow ?_
      simpa [Grammar.belowProjection, hkind] using h.contains
    rw [peelOne, if_neg hkind]
    exact hinputs.relation_malformedUnless.map _

end Stands

/-- A query that conforms to the grammar can be read if it is printable, and is malformed
otherwise. -/
theorem Stands.select_malformedUnless (h : s.Stands expected) (hkind : s.kind = .assign) :
    MalformedUnless s.Printable s.select := by
  obtain ⟨_, body, _, hoperand, hbody, hprintable⟩ :=
    h.printable_operand (by rw [hkind]; rfl) (by rw [hkind]; rfl) (by rw [hkind]; decide)
  rw [hkind] at hbody
  obtain ⟨target, htarget⟩ := h.exists_nameAt (.inl hkind)
  obtain ⟨renames, body₁, hrenames, hbody₁, hprintable₁⟩ :=
    @Stands.exists_peel _ .rename Grammar.stack Grammar.belowDerived _ rfl rfl (by decide)
      (fun s hs => hs.exists_renamePair) (fun k => by cases k <;> decide)
      (fun k => by cases k <;> decide) _ hbody
  obtain ⟨derived, body₂, hderived, hbody₂, hprintable₂⟩ :=
    @Stands.exists_peel _ .extraColumn Grammar.belowDerived
      (.ofList [.projection, .condition] ∪ .inputs) _ rfl rfl (by decide)
      (fun s hs => hs.exists_derivedColumn) (fun k => by cases k <;> decide)
      (fun k => by cases k <;> decide) _ hbody₁
  obtain ⟨projection, body₃, hprojection, hbody₃, hprintable₃⟩ :=
    @Stands.exists_peelOne _ _ .projection _ Grammar.belowProjection _ rfl rfl (by decide)
      (fun s hs => hs.exists_columns) (fun k => by cases k <;> decide)
      (fun k => by cases k <;> decide) hbody₂
  rw [hprintable, hprintable₁, hprintable₂, hprintable₃, select, if_neg (not_not.mpr hkind),
    htarget, hoperand]
  simp only [bind, Except.bind, hrenames, hderived, hprojection]
  exact hbody₃.rows_malformedUnless (Select.mk target renames derived projection)

end Subtree

namespace Tree

variable {t : Tree} {roots : KindSet}

theorem kind_subtree (t : Tree) (id : NodeId) : (t.subtree id).kind = t.kind id := by
  rw [subtree]
  cases t.nodes.size <;> rfl

/-- A tree with a deviation, or one that is not a query, is not printed. -/
theorem sql_eq_notCanonical (g : Grammar) (roots : KindSet) (aliasBranches : Bool)
    (h : t.deviation? g roots = none → t.kind t.root ≠ .assign) :
    ∃ cause, t.sql g roots aliasBranches = .error (.notCanonical cause) := by
  rw [sql]
  cases hdeviation : t.deviation? g roots with
  | some node => exact ⟨_, rfl⟩
  | none =>
      have hkind : (t.subtree t.root).kind ≠ .assign := by
        rw [kind_subtree]
        exact h hdeviation
      refine ⟨.root (t.subtree t.root).kind, ?_⟩
      rw [select, Subtree.select, if_pos hkind]
      rfl

theorem Intact.sql_malformedUnless (h : t.Intact .strict) (aliasBranches : Bool)
    (hdeviation : t.deviation? .flatSelect roots = none) (hkind : t.kind t.root = .assign) :
    MalformedUnless (t.subtree t.root).Printable (t.sql .flatSelect roots aliasBranches) := by
  obtain ⟨s, graves, hholds, hreg, _⟩ := h
  rw [sql, hdeviation, select]
  rw [deviation?, hholds.subtree_eq] at hdeviation
  rw [hholds.subtree_eq]
  have hassign : s.kind = .assign := by rw [← hholds.subtree_eq, kind_subtree, hkind]
  exact (Subtree.Stands.select_malformedUnless ⟨hreg, hdeviation⟩ hassign).map _

/-- A tree that has come of an expression is printed exactly if it is a query without deviations
that quotes nothing but names. One that deviates or is no query is refused as not canonical, one
that quotes something else as malformed, and there is no other reason to refuse a tree. -/
theorem Reached.sql_outcomes (h : Reached .strict t) (settings : Settings) :
    let p : Pipeline := ⟨.flatSelect, settings⟩
    let named := (t.subtree t.root).Printable
    ((∃ text, p.sql t = .ok text) ↔
      p.deviation? t = none ∧ t.kind t.root = .assign ∧ named) ∧
    ((∃ cause, p.sql t = .error (.notCanonical cause)) ↔
      p.deviation? t ≠ none ∨ t.kind t.root ≠ .assign) ∧
    ((∃ cause, p.sql t = .error (.malformedTree cause)) ↔
      p.deviation? t = none ∧ t.kind t.root = .assign ∧ ¬ named) ∧
    ∀ cause, p.sql t = .error cause →
      (∃ misplacement, cause = .notCanonical misplacement) ∨
        ∃ malformation, cause = .malformedTree malformation := by
  intro p named
  by_cases hquery : p.deviation? t = none ∧ t.kind t.root = .assign
  · obtain ⟨hdeviation, hkind⟩ := hquery
    obtain ⟨hok, herror⟩ :=
      h.intact.sql_malformedUnless settings.aliasJoinBranches hdeviation hkind
    by_cases hnamed : named
    · obtain ⟨text, htext⟩ : ∃ text, p.sql t = .ok text := hok hnamed
      simp [htext, hdeviation, hkind, hnamed]
    · obtain ⟨cause, hcause⟩ : ∃ cause, p.sql t = .error (.malformedTree cause) := herror hnamed
      simp [hcause, hdeviation, hkind, hnamed]
  · obtain ⟨cause, hcause⟩ : ∃ cause, p.sql t = .error (.notCanonical cause) :=
      sql_eq_notCanonical _ _ _ fun hdeviation hkind => hquery ⟨hdeviation, hkind⟩
    have hmisplaced : p.deviation? t ≠ none ∨ t.kind t.root ≠ .assign := by
      by_contra hnot
      exact hquery ⟨not_not.mp fun hne => hnot (.inl hne), not_not.mp fun hne => hnot (.inr hne)⟩
    refine ⟨?_, ?_, ?_, ?_⟩
    · exact iff_of_false (by simp [hcause]) fun hall => hquery ⟨hall.1, hall.2.1⟩
    · exact iff_of_true ⟨cause, hcause⟩ hmisplaced
    · exact iff_of_false (by simp [hcause]) fun hall => hquery ⟨hall.1, hall.2.1⟩
    · intro cause' hcause'
      rw [hcause] at hcause'
      cases hcause'
      exact .inl ⟨cause, rfl⟩

/-- A list of columns that is compared with a column goes unnoticed until the tree is printed. -/
theorem Reached.sql_outcomes_columns_in_predicate :
    let e := Expr.assign "T" (.condition
      (.op .equals [.name "a", .constant (.columns ["b"])]) (.input1 "t"))
    ∃ t cause, ofExpr e = .ok t ∧ Pipeline.standard.deviation? t = none ∧
      Pipeline.standard.sql t = .error (.malformedTree cause) := by
  intro e
  let t := planted e
  have ht : ofExpr e = .ok t := ofExpr_eq_ok.mpr ⟨rfl, rfl⟩
  have hdeviation : Pipeline.standard.deviation? t = none := by decide +kernel
  have hcolumns : (t.subtree t.root).preorder.any (fun n => n.kind = .condition &&
      (n.child 0).any fun p => p.preorder.any fun leaf =>
        leaf.kind = .constant && leaf.value = some (.columns ["b"])) = true := by decide +kernel
  have hnamed : ¬ (t.subtree t.root).Printable := by
    intro hprintable
    simp only [List.any_eq_true, Option.any_eq_true, Bool.and_eq_true, decide_eq_true_eq]
      at hcolumns
    obtain ⟨n, hn, hkind, p, hp, leaf, hleaf, hconstant, hvalue⟩ := hcolumns
    obtain ⟨text, htext⟩ := (hprintable n hn).predicate hkind p hp leaf hleaf hconstant
    rw [hvalue] at htext
    cases htext
  obtain ⟨cause, hcause⟩ := ((Reached.built ht).sql_outcomes .standard).2.2.1.mpr
    ⟨hdeviation, rfl, hnamed⟩
  exact ⟨t, cause, ht, hdeviation, hcause⟩

end Tree

end FlatSelect
