import FlatSelect.Proofs.Printable
import FlatSelect.Proofs.Renumbering

/-!
# What the text of a predicate says

The texts of leaves are not quoted, so a leaf may look like an operator between its operands, or
like a negation. It cannot pass for one as long as it has no parenthesis. Behind the parenthesis
that opens a predicate, the next one closes it if it is a leaf and opens an operand if it is not,
and what stands before that one tells a negation from the other operators.

So no text of a predicate is the beginning of another one's, whatever follows the two
(`Subtree.Spelled.eq_of_append`), and two predicates have the same text just if they are the same
(`Tree.predicateText_unambiguous`).
-/

namespace FlatSelect

/-- Two texts that are the same are the same up to the first of certain characters, at that
character, and behind it. -/
theorem eq_of_append_cons {α : Type} {marked : α → Prop} {a b x y : List α} {c d : α}
    (h : a ++ c :: x = b ++ d :: y) (ha : ∀ e ∈ a, ¬ marked e) (hb : ∀ e ∈ b, ¬ marked e)
    (hc : marked c) (hd : marked d) : a = b ∧ c = d ∧ x = y := by
  induction a generalizing b with
  | nil =>
      cases b with
      | nil => exact ⟨rfl, List.cons.inj h⟩
      | cons first rest =>
          obtain ⟨rfl, _⟩ := List.cons.inj h
          exact absurd hc (hb c List.mem_cons_self)
  | cons first rest ih =>
      cases b with
      | nil =>
          obtain ⟨rfl, _⟩ := List.cons.inj h
          exact absurd hd (ha first List.mem_cons_self)
      | cons first' rest' =>
          obtain ⟨rfl, hrest⟩ := List.cons.inj h
          obtain ⟨rfl, htail⟩ := ih hrest (fun e he => ha e (List.mem_cons_of_mem _ he))
            fun e he => hb e (List.mem_cons_of_mem _ he)
          exact ⟨rfl, htail⟩

/-- The characters that predicates are put between. -/
def IsParenthesis (c : Char) : Prop :=
  c = '(' ∨ c = ')'

theorem not_isParenthesis_iff {cs : List Char} :
    (∀ c ∈ cs, ¬ IsParenthesis c) ↔ '(' ∉ cs ∧ ')' ∉ cs := by
  constructor
  · exact fun h => ⟨fun hopen => h _ hopen (.inl rfl), fun hclose => h _ hclose (.inr rfl)⟩
  · rintro ⟨hopen, hclose⟩ c hc (rfl | rfl)
    · exact hopen hc
    · exact hclose hc

namespace Kind

/-- No two operators are printed alike. -/
theorem eq_of_sqlOperator {kind kind' : Kind} {operator : String}
    (h : kind.sqlOperator = some operator) (h' : kind'.sqlOperator = some operator) :
    kind = kind' := by
  have hall : ∀ kind ∈ all, ∀ kind' ∈ all, kind.sqlOperator ≠ none →
      kind.sqlOperator = kind'.sqlOperator → kind = kind' := by decide
  exact hall kind (mem_all kind) kind' (mem_all kind') (by simp [h]) (h.trans h'.symm)

theorem blank_notMem_of_sqlOperator {kind : Kind} {operator : String}
    (h : kind.sqlOperator = some operator) : ∀ c ∈ operator.toList, ¬ c = ' ' := by
  have hblank : ' ' ∉ operator.toList := by cases kind <;> cases h <;> decide
  rintro c hc rfl
  exact hblank hc

end Kind

namespace Subtree

/-- A predicate whose leaves hold names without parentheses. -/
inductive Legible : Subtree → Prop
  | leaf {id : NodeId} {text : String} (htext : ∀ c ∈ text.toList, ¬ IsParenthesis c) :
    Legible (.node id .constant (some (.name text)) [])
  | negation {id : NodeId} {operand : Subtree} (h : Legible operand) :
    Legible (.node id .not none [some operand])
  | operation {id : NodeId} {kind : Kind} {left right : Subtree}
    (hkind : kind.isBoolean = true) (hnot : kind ≠ .not) (hleft : Legible left)
    (hright : Legible right) : Legible (.node id kind none [some left, some right])

/-- A predicate is written with these characters. -/
inductive Spelled : Subtree → List Char → Prop
  | leaf {id : NodeId} {text : String} (htext : ∀ c ∈ text.toList, ¬ IsParenthesis c) :
    Spelled (.node id .constant (some (.name text)) []) ('(' :: (text.toList ++ [')']))
  | negation {id : NodeId} {operand : Subtree} {cs : List Char} (h : Spelled operand cs) :
    Spelled (.node id .not none [some operand]) ('(' :: ("NOT ".toList ++ (cs ++ [')'])))
  | operation {id : NodeId} {kind : Kind} {operator : String} {left right : Subtree}
    {cs ds : List Char} (hoperator : kind.sqlOperator = some operator) (hleft : Spelled left cs)
    (hright : Spelled right ds) :
    Spelled (.node id kind none [some left, some right])
      ('(' :: (cs ++ ' ' :: (operator.toList ++ ' ' :: (ds ++ [')']))))

variable {s s' : Subtree}

/-- Every operator but the negation is printed between its operands. -/
theorem exists_sqlOperator_of_isBoolean {kind : Kind} (hkind : kind.isBoolean = true)
    (hnot : kind ≠ .not) : ∃ operator, kind.sqlOperator = some operator := by
  cases kind <;> first | exact ⟨_, rfl⟩ | exact absurd rfl hnot | cases hkind

/-- A predicate without parentheses in its leaves has a text, which is written as it should be. -/
theorem Legible.exists_text (h : s.Legible) :
    ∃ text, s.predicateText = .ok text ∧ s.Spelled text.toList := by
  induction h with
  | @leaf id text htext =>
      refine ⟨Predicate.leaf text, rfl, ?_⟩
      simpa [Predicate.leaf] using @Spelled.leaf id text htext
  | @negation id operand _ ih =>
      obtain ⟨text, htext, hspelled⟩ := ih
      refine ⟨Predicate.negation text, ?_, ?_⟩
      · rw [predicateText, htext]
        rfl
      · simpa [Predicate.negation] using @Spelled.negation id operand _ hspelled
  | @operation id kind left right hkind hnot _ _ ihleft ihright =>
      obtain ⟨operator, hoperator⟩ := exists_sqlOperator_of_isBoolean hkind hnot
      obtain ⟨leftText, hleft, hleftSpelled⟩ := ihleft
      obtain ⟨rightText, hright, hrightSpelled⟩ := ihright
      refine ⟨Predicate.application operator leftText rightText, ?_, ?_⟩
      · rw [predicateText_binary hoperator, hleft, hright]
        rfl
      · simpa [Predicate.application] using
          @Spelled.operation id kind operator left right _ _ hoperator hleftSpelled hrightSpelled

theorem Legible.full (h : s.Legible) : s.full = true := by
  induction h with
  | leaf => rfl
  | negation _ ih => simpa [Subtree.full, fullAll] using ih
  | operation _ _ _ _ ihleft ihright => simpa [Subtree.full, fullAll] using ⟨ihleft, ihright⟩

/-- What stands between the parenthesis that opens a predicate and the next one, and that one. -/
def opening (s : Subtree) : List Char × Char :=
  match s.kind, s.value with
  | .constant, some (.name text) => (text.toList, ')')
  | .not, _ => ("NOT ".toList, '(')
  | _, _ => ([], '(')

theorem opening_of_sqlOperator {id : NodeId} {kind : Kind} {value : Option Value}
    {slots : List (Option Subtree)} {operator : String} (h : kind.sqlOperator = some operator) :
    (Subtree.node id kind value slots).opening = ([], '(') := by
  cases kind <;> first | rfl | cases h

theorem Spelled.exists_cons {cs : List Char} (h : s.Spelled cs) : ∃ rest, cs = '(' :: rest := by
  cases h <;> exact ⟨_, rfl⟩

theorem Spelled.exists_opening {cs : List Char} (h : s.Spelled cs) :
    (∀ c ∈ s.opening.1, ¬ IsParenthesis c) ∧ IsParenthesis s.opening.2 ∧
      ∃ rest, cs = '(' :: (s.opening.1 ++ s.opening.2 :: rest) := by
  cases h with
  | leaf htext => exact ⟨htext, .inr rfl, [], rfl⟩
  | negation h =>
      obtain ⟨rest, rfl⟩ := h.exists_cons
      have hword : ∀ c ∈ "NOT ".toList, ¬ IsParenthesis c :=
        not_isParenthesis_iff.mpr (by decide)
      exact ⟨hword, .inl rfl, _, rfl⟩
  | operation hoperator hleft _ =>
      obtain ⟨rest, rfl⟩ := hleft.exists_cons
      rw [opening_of_sqlOperator hoperator]
      exact ⟨by simp, .inl rfl, _, rfl⟩

theorem Spelled.opening_eq {cs ds x y : List Char} (h : s.Spelled cs) (h' : s'.Spelled ds)
    (heq : cs ++ x = ds ++ y) : s.opening = s'.opening := by
  obtain ⟨hfree, hparen, rest, rfl⟩ := h.exists_opening
  obtain ⟨hfree', hparen', rest', rfl⟩ := h'.exists_opening
  simp only [List.cons_append, List.append_assoc, List.cons.injEq, true_and] at heq
  obtain ⟨hfirst, hsecond, _⟩ := eq_of_append_cons heq hfree hfree' hparen hparen'
  exact Prod.ext hfirst hsecond

/-- If the texts of two predicates, with whatever follows them, are the same, then so are the
predicates, and what follows. -/
theorem Spelled.eq_of_append {cs ds x y : List Char} (h : s.Spelled cs) (h' : s'.Spelled ds)
    (heq : cs ++ x = ds ++ y) : s.toExpr = s'.toExpr ∧ x = y := by
  have hopening := h.opening_eq h' heq
  induction h generalizing s' ds x y with
  | @leaf id text htext =>
      cases h' with
      | @leaf id' text' htext' =>
          obtain rfl : text = text' := String.toList_inj.mp (Prod.mk.inj hopening).1
          simp only [List.cons_append, List.append_assoc, List.nil_append, List.cons.injEq,
            true_and, List.append_cancel_left_eq] at heq
          exact ⟨rfl, heq⟩
      | negation => exact absurd (Prod.mk.inj hopening).2 (by decide)
      | operation hoperator =>
          rw [opening_of_sqlOperator hoperator] at hopening
          exact absurd (Prod.mk.inj hopening).2 (by decide)
  | negation h ih =>
      cases h' with
      | leaf => exact absurd (Prod.mk.inj hopening).2 (by decide)
      | negation h' =>
          simp only [List.cons_append, List.append_assoc, List.nil_append, List.cons.injEq,
            true_and, List.append_cancel_left_eq] at heq
          obtain ⟨hexpr, hrest⟩ := ih h' heq (h.opening_eq h' heq)
          simp only [toExpr, toExprs, hexpr]
          exact ⟨trivial, (List.cons.inj hrest).2⟩
      | operation hoperator =>
          rw [opening_of_sqlOperator hoperator] at hopening
          exact absurd (Prod.mk.inj hopening).1 (by decide)
  | operation hoperator hleft hright ihleft ihright =>
      rw [opening_of_sqlOperator hoperator] at hopening
      cases h' with
      | leaf => exact absurd (Prod.mk.inj hopening).2 (by decide)
      | negation => exact absurd (Prod.mk.inj hopening).1 (by decide)
      | operation hoperator' hleft' hright' =>
          simp only [List.cons_append, List.append_assoc, List.nil_append, List.cons.injEq,
            true_and] at heq
          obtain ⟨hleftExpr, hheq⟩ := ihleft hleft' heq (hleft.opening_eq hleft' heq)
          obtain ⟨hword, _, hheq⟩ := eq_of_append_cons (List.cons.inj hheq).2
            (Kind.blank_notMem_of_sqlOperator hoperator)
            (Kind.blank_notMem_of_sqlOperator hoperator') rfl rfl
          obtain ⟨hrightExpr, hrest⟩ := ihright hright' hheq (hright.opening_eq hright' hheq)
          obtain rfl := Kind.eq_of_sqlOperator hoperator
            (hoperator'.trans (congrArg some (String.toList_inj.mp hword).symm))
          simp only [toExpr, toExprs, hleftExpr, hrightExpr]
          exact ⟨trivial, (List.cons.inj hrest).2⟩

/-- A text is that of one predicate, up to the numbers of its nodes. -/
theorem Legible.predicateText_eq_iff (h : s.Legible) (h' : s'.Legible) :
    s.predicateText = s'.predicateText ↔ s.toExpr = s'.toExpr := by
  constructor
  · intro hsame
    obtain ⟨text, htext, hspelled⟩ := h.exists_text
    obtain ⟨text', htext', hspelled'⟩ := h'.exists_text
    rw [htext, htext', Except.ok.injEq] at hsame
    subst hsame
    exact (hspelled.eq_of_append hspelled' (x := []) (y := []) rfl).1
  · intro hexpr
    rw [← predicateText_bare s, bare_eq_of_full h.full, hexpr, ← bare_eq_of_full h'.full,
      predicateText_bare]

end Subtree

namespace Tree

/-- Predicates whose leaves hold names without parentheses have texts, and two of them have the same
text just if they are the same. -/
theorem predicateText_unambiguous {t u : Tree} {node other : NodeId}
    (h : (t.subtree node).Legible) (h' : (u.subtree other).Legible) :
    ∃ text text', (t.subtree node).predicateText = .ok text ∧
      (u.subtree other).predicateText = .ok text' ∧
      (text = text' ↔ t.exprAt node = u.exprAt other) := by
  obtain ⟨text, htext, _⟩ := h.exists_text
  obtain ⟨text', htext', _⟩ := h'.exists_text
  have hiff := h.predicateText_eq_iff h'
  rw [htext, htext', Except.ok.injEq] at hiff
  exact ⟨text, text', htext, htext', hiff⟩

/-- A leaf may look like a comparison and still be told from one. -/
theorem predicateText_unambiguous_comparison :
    let t := planted (.assign "T" (.condition (.not (.name "a = b")) (.input1 "t")))
    let u := planted (.condition (.not (.op .equals [.name "a", .name "b"])) (.input1 "t"))
    (t.subtree 2).Legible ∧ (u.subtree 3).Legible ∧
      ∃ text text', (t.subtree 2).predicateText = .ok text ∧
        (u.subtree 3).predicateText = .ok text' ∧
        (text = text' ↔ t.exprAt 2 = u.exprAt 3) := by
  intro t u
  have ht : (t.subtree 2).Legible := .negation (.leaf (not_isParenthesis_iff.mpr (by decide)))
  have hu : (u.subtree 3).Legible :=
    .negation (.operation rfl (by decide) (.leaf (not_isParenthesis_iff.mpr (by decide)))
      (.leaf (not_isParenthesis_iff.mpr (by decide))))
  exact ⟨ht, hu, predicateText_unambiguous ht hu⟩

end Tree

end FlatSelect
