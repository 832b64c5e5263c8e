import FlatSelect.Proofs.References

/-!
# Inlining two views

When two views are inlined one after the other, the body of the first brings in references to the
second. One may as well inline the second view into the first beforehand, and then both into the
target, the other way round (`Tree.Reached.into_into`).

What stands in the way of that is a change of context. Whether a name is a reference depends on
where it stands, and inlining puts the top of a body where something else stood. So the body of the
first view must not be a name of the second, nor an alias over that name, which would be a reference
as a branch of a join and nowhere else. And the body of the second view must not bring in the first.
-/

namespace FlatSelect

namespace Expr

mutual
/-- The names that the leaves of an expression hold. -/
def names : Expr → List String
  | .node _ value children => (value.bind Value.asName?).toList ++ namesAll children
/-- The names that the leaves of several expressions hold. -/
def namesAll : List Expr → List String
  | [] => []
  | e :: es => e.names ++ namesAll es
end

variable {c : Contract} {name : String} {body e : Expr}

/-- An operand that is not itself the way in which a join reads a relation is gone through. -/
theorem inlinedOperand_of_branchReading (parent : Kind) (h : branchReading? name e = none) :
    inlinedOperand name body parent e = inlined name body e := by
  rw [inlinedOperand, inlinedBranch_eq_none h, ite_self, Option.getD_none]

theorem inlined_constant (v : Value) : inlined name body (.constant v) = .constant v := by
  rw [constant, inlined, if_neg (fun h => nomatch h.1), inlinedAll]

/-- Below an operator that is neither a relation nor a join, an operand next to a constant. -/
theorem inlined_beside {kind : Kind} (hinput : kind ≠ .input1) (hjoin : kind ≠ .input2)
    (v : Value) (operand : Expr) : inlined name body (.op kind [.constant v, operand]) =
      .op kind [.constant v, inlined name body operand] := by
  rw [op, inlined, if_neg (fun h => hinput h.1), inlinedAll_eq_map]
  simp only [List.map_cons, List.map_nil, inlinedOperand_of_ne hjoin, inlined_constant, op]

theorem inlined_assign (target : String) (operand : Expr) :
    inlined name body (.assign target operand) = .assign target (inlined name body operand) :=
  inlined_beside (by decide) (by decide) (.name target) operand

theorem inlined_branch (asName : Value) (relation : Expr) :
    inlined name body (.op .renameAll [.constant asName, relation]) =
      .op .renameAll [.constant asName, inlined name body relation] :=
  inlined_beside (by decide) (by decide) asName relation

theorem inlinedOperand_name (name : String) (body : Expr) :
    inlinedOperand name body .input2 (.name name) =
      .op .renameAll [.constant (.name name), body] := by
  rw [inlinedOperand, if_pos rfl, Expr.name, constant, inlinedBranch?, if_pos rfl]
  rfl

theorem inlinedOperand_branch (name : String) (body : Expr) (asName : Value) :
    inlinedOperand name body .input2 (.op .renameAll [.constant asName, .name name]) =
      .op .renameAll [.constant asName, body] := by
  have hvalue : [constant asName, Expr.name name][1]?.bind value = some (.name name) := rfl
  rw [inlinedOperand, if_pos rfl, op, inlinedBranch?, if_pos hvalue]
  rfl

theorem branchReading_branch (asName : Value) {relation : Expr}
    (h : relation.value ≠ some (.name name)) :
    branchReading? name (.op .renameAll [.constant asName, relation]) = none :=
  if_neg h

/-! ### Names that do not occur -/

theorem mem_names_of_value {text : String} (h : e.value = some (.name text)) : text ∈ e.names := by
  obtain ⟨kind, value, children⟩ := e
  obtain rfl : value = some (.name text) := h
  simp [names, Value.asName?]

theorem mem_namesAll {text : String} {es : List Expr} :
    text ∈ namesAll es ↔ ∃ e ∈ es, text ∈ e.names := by
  induction es with
  | nil => simp [namesAll]
  | cons e es ih => simp [namesAll, ih]

theorem value_operand_of_names {kind : Kind} {value : Option Value} {children : List Expr}
    (h : name ∉ (Expr.node kind value children).names) (slot : Nat) :
    children[slot]?.bind Expr.value ≠ some (.name name) := by
  intro hvalue
  obtain ⟨child, hchild, hname⟩ := Option.bind_eq_some_iff.mp hvalue
  have hmem : name ∈ namesAll children :=
    mem_namesAll.mpr ⟨child, List.mem_of_getElem? hchild, mem_names_of_value hname⟩
  exact h (List.mem_append_right _ hmem)

theorem branchReading_of_names (h : name ∉ e.names) : branchReading? name e = none := by
  obtain ⟨kind, value, children⟩ := e
  cases kind
  case constant => exact if_neg fun hvalue => h (mem_names_of_value hvalue)
  case renameAll => exact if_neg (value_operand_of_names h 1)
  all_goals rfl

mutual
/-- Nothing is read by a name that does not occur. -/
theorem readings_of_names : ∀ {e : Expr}, name ∉ e.names → readings name e = []
  | .node kind value children, h => by
    rw [readings, if_neg fun hreads => value_operand_of_names h 0 hreads.2]
    exact readingsFrom_of_names kind 0 fun hmem => h (List.mem_append_right _ hmem)
theorem readingsFrom_of_names (parent : Kind) : ∀ (slot : Nat) {es : List Expr},
    name ∉ namesAll es → readingsFrom name parent slot es = []
  | _, [], _ => rfl
  | slot, e :: es, h => by
    rw [namesAll, List.mem_append, not_or] at h
    rw [readingsFrom, branchReading_of_names h.1, ite_self, Option.map_none, Option.getD_none,
      readings_of_names h.1, readingsFrom_of_names parent (slot + 1) h.2]
    rfl
end

/-! ### Regular expressions -/

/-- A branch of a join that reads a relation by its name is the name, or an alias over the name. -/
theorem branch_cases (h : e.bare.Regular c) (name : String) :
    branchReading? name e = none ∨ e = .name name ∨
      ∃ asName : Value, e = .op .renameAll [.constant asName, .name name] := by
  rcases h.branch_cases name with ⟨_, hnone, _⟩ | ⟨id, hs⟩ | ⟨id, first, asName, second, hs⟩
  · rw [toExpr_bare] at hnone
    exact .inl hnone
  · have he := congrArg Subtree.toExpr hs
    rw [toExpr_bare] at he
    exact .inr (.inl he)
  · have he := congrArg Subtree.toExpr hs
    rw [toExpr_bare] at he
    exact .inr (.inr ⟨asName, he⟩)

theorem value_ne_of_branchReading (h : e.bare.Regular c) (hnone : branchReading? name e = none) :
    e.value ≠ some (.name name) := by
  intro hvalue
  have hkind := h.constant_of_value (s := e.bare) (by rw [bare_value]; exact hvalue)
  rw [bare_kind] at hkind
  obtain ⟨kind, value, children⟩ := e
  obtain rfl : kind = .constant := hkind
  obtain rfl : value = some (.name name) := hvalue
  rw [branchReading?, if_pos rfl] at hnone
  cases hnone

theorem value_inlined {v : Value} (h : (inlined name body e).value = some v) :
    body.value = some v ∨ e.value = some v := by
  obtain ⟨kind, value, children⟩ := e
  rw [inlined] at h
  split at h
  · exact .inl h
  · exact .inr h

/-- Inlining makes no branch of a join out of what was none, unless a body is one. -/
theorem branchReading_inlined {other : String} (hbody : body.bare.Regular c)
    (hnone : branchReading? other body = none) (h : branchReading? other e = none) :
    branchReading? other (inlined name body e) = none := by
  obtain ⟨kind, value, children⟩ := e
  rw [inlined]
  split
  case isTrue => exact hnone
  case isFalse =>
    cases kind
    case constant => exact h
    case renameAll =>
      refine if_neg fun hvalue => ?_
      rw [inlinedAll_eq_map, List.getElem?_map] at hvalue
      obtain ⟨relation', hrelation', hvalue⟩ := Option.bind_eq_some_iff.mp hvalue
      obtain ⟨relation, hrelation, rfl⟩ := Option.map_eq_some_iff.mp hrelation'
      rw [inlinedOperand_of_ne (by decide)] at hvalue
      rcases value_inlined hvalue with hname | hname
      · exact value_ne_of_branchReading hbody hnone hname
      · rw [branchReading?, if_pos (by rw [hrelation]; exact hname)] at h
        cases h
    all_goals rfl

/-- The parameter of a regular node is not touched, so a stored relation is still the same one. -/
theorem reads_inlinedAll {kind : Kind} {value : Option Value} {children : List Expr}
    (h : (Expr.node kind value children).bare.Regular c) (other : String) :
    (kind = .input1 ∧
        (inlinedAll name body kind children)[0]?.bind Expr.value = some (.name other)) ↔
      (kind = .input1 ∧ children[0]?.bind Expr.value = some (.name other)) := by
  refine and_congr_right fun hkind => ?_
  subst hkind
  obtain ⟨⟨_, _, hparameter⟩, hall⟩ := h
  obtain ⟨v, hv, _⟩ := hparameter rfl
  have hv := (slotValue_bare .input1 value children 0).symm.trans hv
  rw [parameter_inlinedAll rfl hall hv, hv]

section Interchange

variable {v w : String} {a b : Expr}

/-- An operand, where all is well with inlining below it. -/
theorem inlinedOperand_inlinedOperand (hne : v ≠ w) (ha : a.bare.Regular c)
    (hb : b.bare.Regular c) (hread : branchReading? w a = none) (hfree : v ∉ b.names)
    (parent : Kind) (he : e.bare.Regular c)
    (ih : inlined w b (inlined v a e) = inlined v (inlined w b a) (inlined w b e)) :
    inlinedOperand w b parent (inlinedOperand v a parent e) =
      inlinedOperand v (inlined w b a) parent (inlinedOperand w b parent e) := by
  by_cases hjoin : parent = .input2
  case neg => simpa only [inlinedOperand_of_ne hjoin] using ih
  subst hjoin
  have hstays : inlined v (inlined w b a) b = b := inlined_of_readings (readings_of_names hfree)
  have hvalue : b.value ≠ some (.name v) := fun hname => hfree (mem_names_of_value hname)
  -- What a branch comes to whose relation has given way to a body.
  have hbodyFirst : ∀ asName : Value,
      inlinedOperand w b .input2 (.op .renameAll [.constant asName, a]) =
        .op .renameAll [.constant asName, inlined w b a] := by
    intro asName
    have hnone := branchReading_branch asName (value_ne_of_branchReading ha hread)
    rw [inlinedOperand_of_branchReading _ hnone, inlined_branch]
  have hbodySecond : ∀ asName : Value,
      inlinedOperand v (inlined w b a) .input2 (.op .renameAll [.constant asName, b]) =
        .op .renameAll [.constant asName, b] := by
    intro asName
    rw [inlinedOperand_of_branchReading _ (branchReading_branch asName hvalue), inlined_branch,
      hstays]
  rcases branch_cases he v with hv | rfl | ⟨asName, rfl⟩
  · rcases branch_cases he w with hw | rfl | ⟨asName, rfl⟩
    · have hv' : branchReading? v (inlined w b e) = none :=
        branchReading_inlined hb (branchReading_of_names hfree) hv
      have hw' : branchReading? w (inlined v a e) = none := branchReading_inlined ha hread hw
      simpa only [inlinedOperand_of_branchReading _ hv, inlinedOperand_of_branchReading _ hw,
        inlinedOperand_of_branchReading _ hv', inlinedOperand_of_branchReading _ hw'] using ih
    · have hname : inlined v a (.name w) = .name w := inlined_constant (.name w)
      rw [inlinedOperand_of_branchReading _ hv, hname, inlinedOperand_name, hbodySecond]
    · have hname : inlined v a (.op .renameAll [.constant asName, .name w]) =
          .op .renameAll [.constant asName, .name w] := by
        rw [inlined_branch]
        exact congrArg (fun e => op .renameAll [constant asName, e]) (inlined_constant (.name w))
      rw [inlinedOperand_of_branchReading _ hv, hname, inlinedOperand_branch, hbodySecond]
  · have hnone : branchReading? w (.name v) = none := if_neg (by simpa using hne)
    have hname : inlined w b (.name v) = .name v := inlined_constant (.name v)
    rw [inlinedOperand_name, hbodyFirst, inlinedOperand_of_branchReading _ hnone, hname,
      inlinedOperand_name]
  · have hvalue : (Expr.name v).value ≠ some (.name w) := by simpa [name, constant, value] using hne
    have hname : inlined w b (.op .renameAll [.constant asName, .name v]) =
        .op .renameAll [.constant asName, .name v] := by
      rw [inlined_branch]
      exact congrArg (fun e => op .renameAll [constant asName, e]) (inlined_constant (.name v))
    rw [inlinedOperand_branch, hbodyFirst,
      inlinedOperand_of_branchReading _ (branchReading_branch asName hvalue), hname,
      inlinedOperand_branch]

mutual
/-- Inlining one view and then another comes to inlining the other one first, into the one as well
as into the target. -/
theorem inlined_inlined (hne : v ≠ w) (ha : a.bare.Regular c) (hb : b.bare.Regular c)
    (hread : branchReading? w a = none) (hfree : v ∉ b.names) : ∀ {e : Expr}, e.bare.Regular c →
      inlined w b (inlined v a e) = inlined v (inlined w b a) (inlined w b e)
  | .node kind value children, h => by
    by_cases hv : kind = .input1 ∧ children[0]?.bind Expr.value = some (.name v)
    · have hw : ¬ (kind = .input1 ∧ children[0]?.bind Expr.value = some (.name w)) := by
        rw [hv.2]
        simpa using fun _ => hne
      rw [inlined, if_pos hv, inlined, if_neg hw, inlined, if_pos ((reads_inlinedAll h v).mpr hv)]
    · by_cases hw : kind = .input1 ∧ children[0]?.bind Expr.value = some (.name w)
      · rw [inlined, if_neg hv, inlined, if_pos ((reads_inlinedAll h w).mpr hw), inlined,
          if_pos hw, inlined_of_readings (readings_of_names hfree)]
      · rw [inlined, if_neg hv, inlined, if_neg (mt (reads_inlinedAll h w).mp hw), inlined,
          if_neg hw, inlined, if_neg (mt (reads_inlinedAll h v).mp hv),
          inlinedAll_inlinedAll hne ha hb hread hfree kind h.2]
theorem inlinedAll_inlinedAll (hne : v ≠ w) (ha : a.bare.Regular c) (hb : b.bare.Regular c)
    (hread : branchReading? w a = none) (hfree : v ∉ b.names) (parent : Kind) :
    ∀ {es : List Expr}, Subtree.RegularAll c (bareAll es) →
      inlinedAll w b parent (inlinedAll v a parent es) =
        inlinedAll v (inlined w b a) parent (inlinedAll w b parent es)
  | [], _ => rfl
  | e :: es, h => by
    have hfirst := inlinedOperand_inlinedOperand hne ha hb hread hfree parent h.1
      (inlined_inlined hne ha hb hread hfree h.1)
    have hrest := inlinedAll_inlinedAll hne ha hb hread hfree parent h.2
    simp only [inlinedAll_eq_map, List.map_cons] at hrest ⊢
    rw [hfirst, hrest]
end

end Interchange

/-- What inlining a view into a target answers, and what the target is written down as then. -/
def inlining (name : String) (body e : Expr) : Except Error (Nat × Expr) :=
  match readings name e with
  | [] => .error (.unresolvedReference name)
  | way :: ways => .ok ((way :: ways).length, inlined name body e)

end Expr

namespace Tree

variable {t v w view : Tree} {c : Contract} {name x y : String} {body a b : Expr}

/-- Inlining depends on the expressions of the view and of the target alone. -/
theorem Intact.inline_eq (h : t.Intact c) (hview : view.Intact c) :
    ((Edit.inline view).result t).map (Prod.map id toExpr) =
      match view.asView with
      | .error cause => .error (.malformedTree cause)
      | .ok (name, below) => Expr.inlining name below.toExpr t.toExpr := by
  obtain ⟨s, graves, hholds, hreg, _⟩ := h
  obtain ⟨top, graves', hholds', htop, _⟩ := hview
  rw [Edit.result]
  cases hasView : view.asView with
  | error cause =>
      rw [Edit.inline_eq, hasView]
      rfl
  | ok named =>
      obtain ⟨name, below⟩ := named
      dsimp only
      rw [Expr.inlining]
      rcases hholds.inline_cases hreg hasView with ⟨hnone, herror⟩ | ⟨hsome, t', hrun⟩
      · rw [herror, hnone]
        rfl
      · obtain ⟨_, _, s', gone, hasView', hresult, hbecomes, _⟩ :=
          hholds.inline hreg hholds' htop hrun
        cases hasView.symm.trans hasView'
        have hexpr : t'.toExpr = Expr.inlined name below.toExpr t.toExpr := by
          rw [hresult.toExpr_eq, hbecomes.toExpr_eq, hholds.toExpr_eq]
        rw [hrun]
        cases hways : Expr.readings name t.toExpr with
        | nil => exact absurd hways hsome
        | cons way ways =>
            change Except.ok (_, t'.toExpr) = _
            rw [hexpr]
            rfl

/-- A target with a view inlined wherever it reads the view. If it does so nowhere, it is left as it
is. -/
def into (view t : Tree) : Except Error Tree :=
  match Edit.inline view t with
  | .ok _ inlined => .ok inlined
  | .error (.unresolvedReference _) _ => .ok t
  | .error cause _ => .error cause

theorem Intact.exists_into (h : t.Intact c) (hview : view.Intact c)
    (hexpr : view.toExpr = .assign name body) :
    ∃ t', view.into t = .ok t' ∧ t'.Intact c ∧ t'.toExpr = Expr.inlined name body t.toExpr := by
  obtain ⟨top, graves', hholds', htop, _⟩ := id hview
  obtain ⟨below, hasView, rfl⟩ := hholds'.exists_asView htop hexpr
  have heq := h.inline_eq hview
  rw [hasView, Edit.result] at heq
  dsimp only at heq
  rw [Expr.inlining] at heq
  cases hrun : Edit.inline view t with
  | ok count t' =>
      refine ⟨t', by rw [into, hrun], h.inline hview hrun, ?_⟩
      rw [hrun] at heq
      cases hways : Expr.readings name t.toExpr with
      | nil =>
          rw [hways] at heq
          cases heq
      | cons way ways =>
          rw [hways] at heq
          exact congrArg Prod.snd (Except.ok.inj heq)
  | error cause left =>
      rw [hrun] at heq
      cases hways : Expr.readings name t.toExpr with
      | nil =>
          rw [hways] at heq
          obtain rfl : cause = .unresolvedReference name := Except.error.inj heq
          exact ⟨t, by rw [into, hrun], h, (Expr.inlined_of_readings hways).symm⟩
      | cons way ways =>
          rw [hways] at heq
          cases heq

/-- Let two views have different names, let no leaf of the second hold the name of the first, and
let the first be neither the name of the second nor an alias over that name. Then inlining the first
and after that the second comes to the same as inlining the second into the first and into the
target, and after that what has become of the first. So if the target does not read the second view,
it may be inlined into the first beforehand, and if the first does not read it, the two may be
inlined in either order. -/
theorem Reached.into_into (ht : Reached c t) (hv : Reached c v) (hw : Reached c w)
    (hvExpr : v.toExpr = .assign x a) (hwExpr : w.toExpr = .assign y b) (hne : x ≠ y)
    (hfree : x ∉ b.names) (hname : a ≠ .name y)
    (hbranch : ∀ asName, a ≠ .op .renameAll [asName, .name y]) :
    ∃ tv tvw vw tw twv, v.into t = .ok tv ∧ w.into tv = .ok tvw ∧
      w.into v = .ok vw ∧ w.into t = .ok tw ∧ vw.into tw = .ok twv ∧ tvw.toExpr = twv.toExpr ∧
      (Expr.readings y t.toExpr = [] →
        ∃ once, vw.into t = .ok once ∧ once.toExpr = tvw.toExpr) ∧
      (Expr.readings y a = [] →
        ∃ swapped, v.into tw = .ok swapped ∧ swapped.toExpr = tvw.toExpr) := by
  obtain ⟨tv, hrunV, htv, htvExpr⟩ := ht.intact.exists_into hv.intact hvExpr
  obtain ⟨tvw, hrunVW, _, htvwExpr⟩ := htv.exists_into hw.intact hwExpr
  obtain ⟨vw, hrunW, hvw, hvwExpr⟩ := hv.intact.exists_into hw.intact hwExpr
  obtain ⟨tw, hrunT, htw, htwExpr⟩ := ht.intact.exists_into hw.intact hwExpr
  rw [hvExpr, Expr.inlined_assign] at hvwExpr
  obtain ⟨twv, hrunWV, _, htwvExpr⟩ := htw.exists_into hvw hvwExpr
  -- The bodies are regular, since the views are.
  have hregular : ∀ {t : Tree}, t.Intact c → t.toExpr.bare.Regular c := by
    rintro t ⟨s, graves, hholds, hreg, _⟩
    rw [hholds.toExpr_eq, Subtree.regular_toExpr hreg.full]
    exact hreg
  have hbody : ∀ {view : Tree} {name : String} {body : Expr}, view.Intact c →
      view.toExpr = .assign name body → body.bare.Regular c := by
    intro view name body hview hexpr
    have hreg := hregular hview
    rw [hexpr] at hreg
    exact hreg.2.2.1
  have hread : Expr.branchReading? y a = none := by
    rcases Expr.branch_cases (hbody hv.intact hvExpr) y with hnone | heq | ⟨asName, heq⟩
    · exact hnone
    · exact absurd heq hname
    · exact absurd heq (hbranch _)
  have hswap : tvw.toExpr = twv.toExpr := by
    rw [htvwExpr, htvExpr, htwvExpr, htwExpr]
    exact Expr.inlined_inlined hne (hbody hv.intact hvExpr) (hbody hw.intact hwExpr) hread hfree
      (hregular ht.intact)
  refine ⟨tv, tvw, vw, tw, twv, hrunV, hrunVW, hrunW, hrunT, hrunWV, hswap, ?_, ?_⟩
  · intro hnone
    obtain ⟨once, hrun, _, honce⟩ := ht.intact.exists_into hvw hvwExpr
    refine ⟨once, hrun, ?_⟩
    rw [honce, hswap, htwvExpr, htwExpr, Expr.inlined_of_readings hnone]
  · intro hnone
    obtain ⟨swapped, hrun, _, hswapped⟩ := htw.exists_into hv.intact hvExpr
    refine ⟨swapped, hrun, ?_⟩
    rw [hswapped, hswap, htwvExpr, Expr.inlined_of_readings hnone]

/-- A view that joins another one with itself, in a target that reads both. -/
theorem Reached.into_into_joins :
    let a := Expr.projection ["k"] (.input2 (.name "w") (.branch "L" "w"))
    let b := Expr.condition (.name "p") (.input1 "w")
    let target := Expr.assign "T" (.input2 (.renameAll "A" (.input1 "v")) (.name "w"))
    ∃ v w t tv tvw vw tw twv, ofExpr (.assign "v" a) = .ok v ∧ ofExpr (.assign "w" b) = .ok w ∧
      ofExpr target = .ok t ∧ "v" ≠ "w" ∧ "v" ∉ b.names ∧ a ≠ .name "w" ∧
      (∀ asName, a ≠ .op .renameAll [asName, .name "w"]) ∧
      v.into t = .ok tv ∧ w.into tv = .ok tvw ∧ w.into v = .ok vw ∧ w.into t = .ok tw ∧
      vw.into tw = .ok twv ∧ tvw.toExpr = twv.toExpr ∧
      tvw.toExpr = .assign "T" (.input2 (.renameAll "A" (.projection ["k"]
        (.input2 (.renameAll "w" b) (.renameAll "L" b)))) (.renameAll "w" b)) := by
  intro a b target
  let v := planted (.assign "v" a)
  let w := planted (.assign "w" b)
  let t := planted target
  have hv : ofExpr (.assign "v" a) = .ok v := ofExpr_eq_ok.mpr ⟨rfl, rfl⟩
  have hw : ofExpr (.assign "w" b) = .ok w := ofExpr_eq_ok.mpr ⟨rfl, rfl⟩
  have ht : ofExpr target = .ok t := ofExpr_eq_ok.mpr ⟨rfl, rfl⟩
  have hvExpr : v.toExpr = .assign "v" a := by decide +kernel
  have hwExpr : w.toExpr = .assign "w" b := by decide +kernel
  have hname : a ≠ .name "w" := by decide
  have hbranch : ∀ asName, a ≠ .op .renameAll [asName, .name "w"] := by
    intro asName h
    have hkind : Kind.projection = .renameAll := congrArg Expr.kind h
    cases hkind
  have hreached : Reached .strict t := .built ht
  obtain ⟨tv, tvw, vw, tw, twv, hrunV, hrunVW, hrunW, hrunT, hrunWV, hswap, _⟩ :=
    hreached.into_into (.built hv) (.built hw) hvExpr hwExpr (by decide) (by decide) hname hbranch
  refine ⟨v, w, t, tv, tvw, vw, tw, twv, hv, hw, ht, by decide, by decide, hname, hbranch, hrunV,
    hrunVW, hrunW, hrunT, hrunWV, hswap, ?_⟩
  have hresult : (v.into t).toOption.bind (fun tv => (w.into tv).toOption.map toExpr) =
      some (.assign "T" (.input2 (.renameAll "A" (.projection ["k"]
        (.input2 (.renameAll "w" b) (.renameAll "L" b)))) (.renameAll "w" b))) := by
    decide +kernel
  rw [hrunV] at hresult
  simpa [Except.toOption, hrunVW] using hresult

end Tree

end FlatSelect
