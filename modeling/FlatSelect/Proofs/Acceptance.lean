import FlatSelect.Proofs.Postorder
import FlatSelect.Proofs.Reloading

/-!
# Which expressions are accepted

An expression makes sense if all of its nodes do, each by itself and in view of its children alone
(`Expr.Sound`). The check goes through them in a certain order and stops at the first fault, but
whether there is one does not hang on the order (`Expr.check_eq_ok_iff`). A tree is built of an
expression that makes sense, and of no other one. Nothing is lost in it: the nodes of the tree are
those of the expression, numbered in postorder (`Tree.ofExpr_accepts_sound`).
-/

namespace FlatSelect

theorem Value.exists_iff {holds : Value → Prop} : (∃ v, holds v) ↔
    (∃ text, holds (.name text)) ∨ (∃ entries, holds (.columns entries)) ∨
      (∃ new old, holds (.rename new old)) ∨ ∃ asName source, holds (.derived asName source) := by
  constructor
  · rintro ⟨v, hv⟩
    cases v with
    | name text => exact .inl ⟨text, hv⟩
    | columns entries => exact .inr (.inl ⟨entries, hv⟩)
    | rename new old => exact .inr (.inr (.inl ⟨new, old, hv⟩))
    | derived asName source => exact .inr (.inr (.inr ⟨asName, source, hv⟩))
  · rintro (⟨_, h⟩ | ⟨_, h⟩ | ⟨_, _, h⟩ | ⟨_, _, h⟩) <;> exact ⟨_, h⟩

theorem Value.isNameOrNone_iff {value : Option Value} :
    isNameOrNone value = true ↔ ∀ v, value = some v → ∃ text, v = .name text := by
  rw [isNameOrNone, Option.all_eq_true]
  refine forall₂_congr fun v _ => ?_
  cases v <;> simp [asName?]

/-- The form of a value that a node keeps in slot 0, spelled out kind by kind. -/
theorem Kind.exists_admits_iff (kind : Kind) (holds : Value → Prop) :
    (kind.hasParameter = true → ∃ v, holds v ∧ kind.admits v = true) ↔
      (kind = .assign ∨ kind = .renameAll ∨ kind = .input1 → ∃ text, holds (.name text)) ∧
      (kind = .rename → ∃ new old, holds (.rename new old)) ∧
      (kind = .extraColumn → ∃ asName source, holds (.derived asName source)) ∧
      (kind = .projection → ∃ entries, holds (.columns entries)) := by
  rw [Value.exists_iff]
  cases kind <;> simp [hasParameter, admits]

namespace Expr

mutual
/-- The nodes, each behind its children, and these from left to right. -/
def postorder : Expr → List Expr
  | .node kind value children => postorderAll children ++ [.node kind value children]
/-- The nodes of several expressions. -/
def postorderAll : List Expr → List Expr
  | [] => []
  | e :: es => e.postorder ++ postorderAll es
end

/-- The child in a slot is a constant that holds a value. -/
def Keeps (e : Expr) (slot : Nat) (v : Value) : Prop :=
  ∃ child, e.children[slot]? = some child ∧ child.kind = .constant ∧ child.value = some v

/-- What is asked of a node. Constants have a value and no children, any other node has no value and
as many children as its kind owns. A node that keeps something in slot 0 keeps it in the form that
its kind asks for, and a branch of a join does not read a constant that is not a name. -/
structure Sound (e : Expr) : Prop where
  constant (h : e.kind = .constant) : e.value ≠ none ∧ e.children = []
  operator (h : e.kind ≠ .constant) : e.value = none ∧ e.children.length = e.kind.arity
  name (h : e.kind = .assign ∨ e.kind = .renameAll ∨ e.kind = .input1) :
    ∃ text, e.Keeps 0 (.name text)
  rename (h : e.kind = .rename) : ∃ new old, e.Keeps 0 (.rename new old)
  extraColumn (h : e.kind = .extraColumn) : ∃ asName source, e.Keeps 0 (.derived asName source)
  projection (h : e.kind = .projection) : ∃ entries, e.Keeps 0 (.columns entries)
  branch (h : e.kind = .renameAll) (child : Expr) (hchild : e.children[1]? = some child)
    (hconstant : child.kind = .constant) : ∃ text, child.value = some (.name text)

variable {e child : Expr} {kind : Kind} {value : Option Value} {children : List Expr}

theorem mem_postorder_self (e : Expr) : e ∈ e.postorder := by
  cases e
  exact List.mem_append_right _ (List.mem_singleton_self _)

theorem mem_postorderAll (h : child ∈ children) : child ∈ postorderAll children := by
  induction children with
  | nil => exact absurd h List.not_mem_nil
  | cons first rest ih =>
      rcases List.mem_cons.mp h with rfl | h
      · exact List.mem_append_left _ (mem_postorder_self _)
      · exact List.mem_append_right _ (ih h)

mutual
theorem length_postorder : ∀ e : Expr, e.postorder.length = e.size
  | .node _ _ children => by
    rw [postorder, List.length_append, length_postorderAll children, size]
    rfl
theorem length_postorderAll : ∀ es : List Expr, (postorderAll es).length = sizeAll es
  | [] => rfl
  | e :: es => by
    rw [postorderAll, List.length_append, length_postorder e, length_postorderAll es, sizeAll]
end

/-! ### The parts of the check -/

theorem seq_eq_ok {r r' : Except Malformation Unit} :
    (do r; r') = .ok () ↔ r = .ok () ∧ r' = .ok () := by
  refine ⟨of_seq_eq_ok, ?_⟩
  rintro ⟨rfl, h⟩
  exact h

theorem checkParameter_eq_ok_iff : checkParameter kind children = .ok () ↔
    (kind.hasParameter = true →
      ∃ v, children[0]?.bind Expr.value = some v ∧ kind.admits v = true) :=
  ⟨exists_of_checkParameter, checkParameter_eq_ok⟩

theorem checkRelation_eq_ok_iff : checkRelation kind children = .ok () ↔
    (kind.isBranch = true → Value.isNameOrNone (children[1]?.bind Expr.value) = true) := by
  rcases checkRelation_cases kind children with ⟨hnames, hok⟩ | ⟨hnames, v, _, herror⟩
  · exact iff_of_true hok hnames
  · exact iff_of_false (fun hok => nomatch herror.symm.trans hok) hnames

theorem checkNode_eq_ok_iff : checkNode kind value children.length = .ok () ↔
    (kind = .constant → value ≠ none ∧ children = []) ∧
      (kind ≠ .constant → value = none ∧ children.length = kind.arity) := by
  rw [checkNode_eq_ok]
  by_cases hkind : kind = .constant
  · simp [hkind, Kind.arity, Option.isSome_iff_ne_none]
  · simp [hkind]

/-- Where values stand on constants alone, a value in a slot is what a constant keeps there. -/
theorem keeps_iff (hvalues : ∀ child ∈ children, child.value.isSome = true ↔ child.kind = .constant)
    {slot : Nat} {v : Value} :
    (node kind value children).Keeps slot v ↔ children[slot]?.bind Expr.value = some v := by
  rw [Option.bind_eq_some_iff]
  refine exists_congr fun child => and_congr_right fun hchild => and_iff_right_of_imp fun hv => ?_
  exact (hvalues child (List.mem_of_getElem? hchild)).mp (Option.isSome_of_eq_some hv)

/-- Where values stand on constants alone, all that a constant keeps in a slot is a name if the
constant there holds one. -/
theorem forall_keeps_iff
    (hvalues : ∀ child ∈ children, child.value.isSome = true ↔ child.kind = .constant)
    {slot : Nat} :
    (∀ v, (node kind value children).Keeps slot v → ∃ text, v = .name text) ↔
      ∀ child, children[slot]? = some child → child.kind = .constant →
        ∃ text, child.value = some (.name text) := by
  constructor
  · intro h child hchild hconstant
    obtain ⟨v, hv⟩ := Option.isSome_iff_exists.mp
      ((hvalues child (List.mem_of_getElem? hchild)).mpr hconstant)
    obtain ⟨text, rfl⟩ := h v ⟨child, hchild, hconstant, hv⟩
    exact ⟨text, hv⟩
  · rintro h v ⟨child, hchild, hconstant, hv⟩
    obtain ⟨text, htext⟩ := h child hchild hconstant
    exact ⟨text, Option.some.inj (hv.symm.trans htext)⟩

/-- Where values stand on constants alone, a node is sound if it passes its three checks. -/
theorem sound_iff
    (hvalues : ∀ child ∈ children, child.value.isSome = true ↔ child.kind = .constant) :
    (node kind value children).Sound ↔ checkNode kind value children.length = .ok () ∧
      checkParameter kind children = .ok () ∧ checkRelation kind children = .ok () := by
  have hkeeps : ∀ slot v, children[slot]?.bind Expr.value = some v ↔
      (node kind value children).Keeps slot v := fun slot v => (keeps_iff hvalues).symm
  have hbranch : kind.isBranch = true ↔ kind = .renameAll :=
    ⟨Kind.eq_renameAll_of_isBranch, fun h => h ▸ rfl⟩
  rw [checkNode_eq_ok_iff, checkParameter_eq_ok_iff, checkRelation_eq_ok_iff,
    Value.isNameOrNone_iff]
  simp only [hkeeps]
  rw [Kind.exists_admits_iff, forall_keeps_iff hvalues, hbranch]
  constructor
  · intro h
    exact ⟨⟨h.constant, h.operator⟩, ⟨h.name, h.rename, h.extraColumn, h.projection⟩, h.branch⟩
  · rintro ⟨⟨hconstant, hoperator⟩, ⟨hname, hrename, hextraColumn, hprojection⟩, hbranch⟩
    exact ⟨hconstant, hoperator, hname, hrename, hextraColumn, hprojection, hbranch⟩

theorem Sound.isSome_value_iff (h : e.Sound) : e.value.isSome = true ↔ e.kind = .constant := by
  by_cases hkind : e.kind = .constant
  · exact iff_of_true (Option.isSome_iff_ne_none.mpr (h.constant hkind).1) hkind
  · refine iff_of_false ?_ hkind
    rw [(h.operator hkind).1]
    exact Bool.false_ne_true

mutual
/-- An expression passes its check if all of its nodes are sound. -/
theorem check_eq_ok_iff : ∀ {e : Expr}, e.check = .ok () ↔ ∀ n ∈ e.postorder, n.Sound
  | .node kind value children => by
    rw [check, seq_eq_ok, seq_eq_ok, seq_eq_ok, @checkAll_eq_ok_iff children, postorder,
      List.forall_mem_append, List.forall_mem_singleton, and_left_comm]
    refine and_congr_right fun hall => (sound_iff fun child hchild => ?_).symm
    exact (hall child (mem_postorderAll hchild)).isSome_value_iff
theorem checkAll_eq_ok_iff : ∀ {es : List Expr},
    checkAll es = .ok () ↔ ∀ n ∈ postorderAll es, n.Sound
  | [] => iff_of_true rfl fun n hn => absurd hn List.not_mem_nil
  | e :: es => by
    rw [checkAll, seq_eq_ok, @check_eq_ok_iff e, @checkAll_eq_ok_iff es, postorderAll,
      List.forall_mem_append]
end

end Expr

/-! ### The tree of an expression -/

namespace Subtree

mutual
/-- The nodes of what a subtree stands for are what its nodes stand for. -/
theorem postorder_toExpr : ∀ s : Subtree, s.toExpr.postorder = s.postorder.map toExpr
  | .node id kind value slots => by
    rw [toExpr, Expr.postorder, postorderAll_toExprs slots, postorder, List.map_append]
    rfl
theorem postorderAll_toExprs : ∀ slots : List (Option Subtree),
    Expr.postorderAll (toExprs slots) = (postorderAll slots).map toExpr
  | [] => rfl
  | none :: rest => postorderAll_toExprs rest
  | some s :: rest => by
    rw [toExprs, Expr.postorderAll, postorder_toExpr s, postorderAll_toExprs rest, postorderAll,
      List.map_append]
end

end Subtree

namespace Tree

variable {t : Tree} {s : Subtree} {graves : Records}

/-- The expressions below the nodes of a tree, in postorder, are those below the nodes of the
expression that it stands for. -/
theorem Holds.map_exprAt_postorder (h : t.Holds s graves) :
    t.postorder.map t.exprAt = s.toExpr.postorder := by
  rw [postorder, h.subtree_eq, Subtree.postorder_toExpr, List.map_map]
  refine List.map_congr_left fun n hn => ?_
  obtain ⟨path, rfl⟩ := Subtree.exists_path_of_mem_preorder
    ((Subtree.postorder_perm s).mem_iff.mp hn)
  exact congrArg Subtree.toExpr h.stores_foot.subtree_eq

/-- A tree is built of an expression if all of its nodes are sound, and otherwise the fault is one
of the expression. The tree stands for the expression, has as many nodes, and their numbers are the
positions in postorder of what they stand for. -/
theorem ofExpr_accepts_sound (e : Expr) :
    ((∃ t, ofExpr e = .ok t) ↔ ∀ n ∈ e.postorder, n.Sound) ∧
    (∀ error, ofExpr e = .error error → ∃ cause, error = .malformedTree cause) ∧
    (∀ t, ofExpr e = .ok t → t.toExpr = e ∧ t.nodes.size = e.size ∧
      t.postorder = List.range e.size ∧ (List.range e.size).map t.exprAt = e.postorder) := by
  refine ⟨?_, ?_, ?_⟩
  · rw [← Expr.check_eq_ok_iff]
    constructor
    · rintro ⟨t, ht⟩
      exact (ofExpr_eq_ok.mp ht).1
    · intro hcheck
      exact ⟨planted e, ofExpr_eq_ok.mpr ⟨hcheck, rfl⟩⟩
  · intro error herror
    rw [ofExpr] at herror
    split at herror
    · exact ⟨_, (Except.error.inj herror).symm⟩
    · cases herror
  · intro t ht
    obtain ⟨_, rfl⟩ := ofExpr_eq_ok.mp ht
    obtain ⟨copy, hholds, hbare, hnumbers⟩ := exists_holds_grafted e.bare
    rw [← planted_eq_grafted] at hholds hnumbers
    have hexpr : copy.toExpr = e := by
      rw [← Subtree.toExpr_bare, hbare, Subtree.toExpr_bare, e.toExpr_bare]
    have hsize : (planted e).nodes.size = e.size := by
      rw [← List.length_range (n := (planted e).nodes.size), ← hnumbers, List.length_map,
        ← List.length_map Subtree.toExpr, ← Subtree.postorder_toExpr, hexpr, Expr.length_postorder]
    have hpostorder : (planted e).postorder = List.range e.size := by
      rw [postorder, hholds.subtree_eq, hnumbers, hsize]
    refine ⟨?_, hsize, hpostorder, ?_⟩
    · rw [toExpr, exprAt, hholds.subtree_eq, hexpr]
    · rw [← hpostorder, hholds.map_exprAt_postorder, hexpr]

/-- A branch may read a relation by its name, but not a list of columns. -/
theorem ofExpr_accepts_sound_renameAll :
    (∀ n ∈ (Expr.branch "a" "t").postorder, n.Sound) ∧
    (¬ ∀ n ∈ (Expr.renameAll "a" (.constant (.columns ["x"]))).postorder, n.Sound) ∧
    ∃ t, ofExpr (.branch "a" "t") = .ok t ∧ t.postorder = [0, 1, 2] ∧
      [0, 1, 2].map t.exprAt = [.name "a", .name "t", .branch "a" "t"] := by
  obtain ⟨haccepted, _, hnumbers⟩ := ofExpr_accepts_sound (.branch "a" "t")
  obtain ⟨hrefused, _, _⟩ :=
    ofExpr_accepts_sound (.renameAll "a" (.constant (.columns ["x"])))
  obtain ⟨_, _, hpostorder, hexprs⟩ := hnumbers _ rfl
  refine ⟨haccepted.mp ⟨_, rfl⟩, fun h => ?_, _, rfl, hpostorder, hexprs⟩
  obtain ⟨t, ht⟩ := hrefused.mpr h
  cases ht

end Tree

end FlatSelect
