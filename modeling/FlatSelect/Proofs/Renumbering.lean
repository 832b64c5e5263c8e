import FlatSelect.Proofs.Interchange
import FlatSelect.Proofs.Reading
import FlatSelect.Select.Sql

/-!
# Numbers make no difference

Two trees may stand for one expression and yet number their nodes in different ways, and one may
have dead nodes that the other has not. They are alike if they represent the same subtree but for
the numbers. First deviations of trees that are alike stand at the same place, and lifting them
comes to the same again (`Tree.Alike.lift`), so whole runs of lifts go side by side
(`Edit.Settles.alike`). Compacting takes the last difference away.

So what is made of a tree depends on its expression alone (`Tree.Reached.same_results`): a
normalization, the inlining of a view, and the statement that it is printed as. Only a message that
names a node by its number may name it differently.
-/

namespace FlatSelect

/-- An error without the number of a node. -/
def Error.unnumbered : Error → Error
  | .notCanonical (.deviation kind _) => .notCanonical (.deviation kind 0)
  | other => other

theorem Path.Clear.bare {g : Grammar} {roots : KindSet} {path : Path} (h : path.Clear g roots) :
    path.bare.Clear g roots := by
  induction path with
  | nil => trivial
  | cons f above ih =>
      obtain ⟨hkind, hbefore, habove⟩ := h
      refine ⟨?_, ?_, ih habove⟩
      · rw [← Path.expected_bare] at hkind
        exact hkind
      · rw [Frame.bare_kind, Frame.bare, Subtree.deviationIn?_bareIn, hbefore]
        rfl

namespace Tree

/-- Two trees represent the same subtree but for the numbers. -/
def Alike (t u : Tree) : Prop :=
  ∃ s, t.Bears s ∧ u.Bears s

variable {t u : Tree} {g : Grammar} {roots : KindSet} {c : Contract}

theorem Bears.toExpr_eq {s : Subtree} (h : t.Bears s) : t.toExpr = s.toExpr := by
  obtain ⟨numbered, ⟨graves, hholds⟩, rfl⟩ := h
  rw [hholds.toExpr_eq, Subtree.toExpr_bare]

theorem Alike.toExpr_eq (h : t.Alike u) : t.toExpr = u.toExpr := by
  obtain ⟨s, ht, hu⟩ := h
  rw [ht.toExpr_eq, hu.toExpr_eq]

theorem Intact.bears (h : t.Intact c) : t.Bears t.toExpr.bare := by
  obtain ⟨s, graves, hholds, hreg, _⟩ := h
  refine ⟨s, hholds.represents, ?_⟩
  rw [hholds.toExpr_eq]
  exact Subtree.bare_eq_of_full hreg.full

theorem Intact.compact_eq (h : t.Intact c) : t.compact = planted t.toExpr := by
  obtain ⟨s, graves, hholds, hreg, _⟩ := h
  rw [hholds.represents.compact_eq hreg.full, hholds.toExpr_eq]

theorem Intact.alike (ht : t.Intact c) (hu : u.Intact c) (h : t.toExpr = u.toExpr) :
    t.Alike u :=
  ⟨t.toExpr.bare, ht.bears, h ▸ hu.bears⟩

/-- Lifting first deviations of trees that are alike comes to the same. -/
theorem Alike.lift {node : NodeId} (h : t.Alike u) (hnode : t.deviation? g roots = some node) :
    ∃ node', u.deviation? g roots = some node' ∧ u.kind node' = t.kind node ∧
      match Edit.lift g node t, Edit.lift g node' u with
      | .ok outcome t', .ok outcome' u' =>
        outcome'.unnumbered = outcome.unnumbered ∧ t'.Alike u'
      | .error cause _, .error cause' _ => cause' = cause
      | _, _ => False := by
  obtain ⟨_, ⟨whole, ht, rfl⟩, hu⟩ := h
  have hfound := hnode
  rw [Tree.deviation?, ht.subtree_eq] at hfound
  obtain ⟨path, s, rfl, _, hclear, hexpected⟩ := Subtree.exists_path_of_deviation hfound
  rw [← Path.expected_bare, ← s.bare_kind] at hexpected
  rw [Path.fill_bare] at hu
  have hbears : t.Bears (path.bare.fill s.bare) := ⟨_, ht, path.fill_bare s⟩
  obtain ⟨id, hdeviation, hkind, hlift⟩ :=
    Subtree.lift_of_bears hbears hclear.bare hexpected
  obtain ⟨node', hdeviation', hkind', hlift'⟩ :=
    Subtree.lift_of_bears hu hclear.bare hexpected
  obtain rfl : node = id := Option.some.inj (hnode.symm.trans hdeviation)
  refine ⟨node', hdeviation', hkind'.trans hkind.symm, ?_⟩
  cases hrun : s.bare.lift g 0 path.bare with
  | error cause =>
      rw [hrun] at hlift hlift'
      rw [hlift, hlift']
  | ok lifted =>
      rw [hrun] at hlift hlift'
      obtain ⟨outcome, t', hok, houtcome, ht'⟩ := hlift
      obtain ⟨outcome', u', hok', houtcome', hu'⟩ := hlift'
      rw [hok, hok']
      exact ⟨houtcome'.trans houtcome.symm, lifted.2, ht', hu'⟩

theorem Alike.deviation?_eq_none (h : t.Alike u) (hnone : t.deviation? g roots = none) :
    u.deviation? g roots = none := by
  obtain ⟨s, ht, hu⟩ := h
  exact hu.deviation?_eq_none_iff.mpr (ht.deviation?_eq_none_iff.mp hnone)

end Tree

namespace Edit

variable {g : Grammar} {roots : KindSet} {t u : Tree} {outcomes : List Lift.Outcome}
  {ending : Ending}

/-- Two runs of lifts end in trees that are alike, or are stuck for the same cause. -/
def Ending.Alike : Ending → Ending → Prop
  | .canonical last, .canonical last' => last.Alike last'
  | .stuck cause, .stuck cause' => cause' = cause
  | _, _ => False

/-- From trees that are alike, lifting first deviations goes on in the same way. -/
theorem Settles.alike (h : Settles g roots t outcomes ending) (hu : t.Alike u) :
    ∃ outcomes' ending', Settles g roots u outcomes' ending' ∧
      outcomes'.map Lift.Outcome.unnumbered = outcomes.map Lift.Outcome.unnumbered ∧
      ending.Alike ending' := by
  induction h generalizing u with
  | canonical hdeviation =>
      exact ⟨[], _, .canonical (hu.deviation?_eq_none hdeviation), rfl, hu⟩
  | @stuck t left node cause hdeviation hlift =>
      obtain ⟨node', hdeviation', _, hsame⟩ := hu.lift hdeviation
      rw [hlift] at hsame
      cases hlift' : Edit.lift g node' u with
      | ok outcome' u' =>
          rw [hlift'] at hsame
          exact hsame.elim
      | error cause' left' =>
          rw [hlift'] at hsame
          exact ⟨[], _, .stuck hdeviation' hlift', rfl, hsame⟩
  | @lift t t' node outcome outcomes ending hdeviation hlift _ ih =>
      obtain ⟨node', hdeviation', _, hsame⟩ := hu.lift hdeviation
      rw [hlift] at hsame
      cases hlift' : Edit.lift g node' u with
      | error cause' left' =>
          rw [hlift'] at hsame
          exact hsame.elim
      | ok outcome' u' =>
          rw [hlift'] at hsame
          obtain ⟨houtcome, halike⟩ := hsame
          obtain ⟨outcomes', ending', hsettles, houtcomes, hending⟩ := ih halike
          refine ⟨_, ending', .lift hdeviation' hlift' hsettles, ?_, hending⟩
          rw [List.map_cons, List.map_cons, houtcome, houtcomes]

theorem result_normalize (budget : Nat) : (normalize g roots budget).result t =
    ((liftAll g roots budget .zero).result t).map fun (tally, last) => (tally, last.compact) := by
  rw [result, normalize_eq]
  cases (liftAll g roots budget .zero).result t <;> rfl

theorem foldl_count_unnumbered (outcomes : List Lift.Outcome) (tally : Tally) :
    (outcomes.map Lift.Outcome.unnumbered).foldl Tally.count tally =
      outcomes.foldl Tally.count tally := by
  induction outcomes generalizing tally with
  | nil => rfl
  | cons outcome rest ih =>
      have hcount : tally.count outcome.unnumbered = tally.count outcome := by
        cases outcome <;> rfl
      rw [List.map_cons, List.foldl_cons, List.foldl_cons, hcount, ih]

end Edit

/-! ### Reading -/

namespace Subtree

/-- The text of a predicate, put together from the texts in its first two slots. -/
def textOf (kind : Kind) (value : Option Value) (left right : Option (Except Error String)) :
    Except Error String :=
  match kind with
  | .constant => Predicate.constant value
  | .not => (left.getD (.error (.malformedTree (.vacantSlot .not 0)))).map Predicate.negation
  | kind =>
    match kind.sqlOperator with
    | none => .error (.notCanonical (.inPredicate kind))
    | some operator => do
      let left ← left.getD (.error (.malformedTree (.vacantSlot kind 0)))
      let right ← right.getD (.error (.malformedTree (.vacantSlot kind 1)))
      return Predicate.application operator left right

theorem predicateText_eq (s : Subtree) : s.predicateText =
    textOf s.kind s.value ((s.child 0).map predicateText) ((s.child 1).map predicateText) := by
  obtain ⟨id, kind, value, slots⟩ := s
  rcases slots with _ | ⟨_ | left, _ | ⟨_ | right, rest⟩⟩ <;> cases kind <;> rfl

theorem mem_slots_of_child {s c : Subtree} {slot : Nat} (h : s.child slot = some c) :
    some c ∈ s.slots :=
  List.mem_of_getElem? (Option.join_eq_some_iff.mp h)

theorem predicateText_bare : ∀ s : Subtree, s.bare.predicateText = s.predicateText := by
  refine of_slots ?_
  intro s ih
  have hbelow : ∀ slot, (s.bare.child slot).map predicateText =
      (s.child slot).map predicateText := by
    intro slot
    rw [bare_child, Option.map_map]
    exact Option.map_congr fun child h => ih child (mem_slots_of_child h)
  rw [predicateText_eq, predicateText_eq s, bare_kind, bare_value, hbelow, hbelow]

theorem conditionText_bare (s : Subtree) : s.bare.conditionText = s.conditionText := by
  rw [conditionText, conditionText, bare_child]
  cases s.child 0 with
  | none => rfl
  | some top => exact top.predicateText_bare

section Clauses

variable {α : Type} {kind : Kind} {clause : Subtree → Except Error α}

theorem peel_eq (s : Subtree) : s.peel kind clause =
    if s.kind = kind then do
      let first ← clause s
      let below ← s.operand
      let (clauses, rest) ← below.peel kind clause
      return (first :: clauses, rest)
    else .ok ([], s) := by
  obtain ⟨id, top, value, slots⟩ := s
  rw [peel]
  refine if_ctx_congr Iff.rfl ?_ fun _ => rfl
  rintro rfl
  rcases slots with _ | ⟨first, _ | ⟨_ | below, rest⟩⟩ <;> rfl

theorem peel_bare (hclause : ∀ s : Subtree, clause s.bare = clause s) : ∀ s : Subtree,
    s.bare.peel kind clause =
      (s.peel kind clause).map fun (clauses, rest) => (clauses, rest.bare) := by
  refine of_slots ?_
  intro s ih
  rw [peel_eq, peel_eq s, bare_kind, hclause, operand_bare]
  split
  · cases clause s with
    | error => rfl
    | ok first =>
      cases hoperand : s.operand with
      | error => rfl
      | ok below =>
        have hbelow := ih below (mem_slots_of_child (child_of_operand hoperand))
        simp only [Except.map, bind, Except.bind, hbelow]
        cases below.peel kind clause <;> rfl
  · rfl

theorem peelOne_bare (hclause : ∀ s : Subtree, clause s.bare = clause s) (s : Subtree) :
    s.bare.peelOne kind clause =
      (s.peelOne kind clause).map fun (found, rest) => (found, rest.bare) := by
  rw [peelOne, peelOne, bare_kind, hclause, operand_bare]
  split
  · cases clause s with
    | error => rfl
    | ok found => cases s.operand <;> rfl
  · rfl

end Clauses

theorem bind_eq_of_map {α α' β : Type} {r : Except Error α} {φ : α → α'} {f : α → Except Error β}
    {f' : α' → Except Error β} (h : ∀ a, f' (φ a) = f a) : r.map φ >>= f' = r >>= f := by
  cases r with
  | error => rfl
  | ok a => exact h a

/-- A select is read in the same way however the nodes are numbered. -/
theorem select_bare (s : Subtree) : s.bare.select = s.select := by
  rw [select, select, bare_kind, nameAt_bare, operand_bare]
  refine if_congr Iff.rfl rfl (bind_congr fun target => bind_eq_of_map ?_)
  intro body
  rw [peel_bare bare_renamePair]
  refine bind_eq_of_map ?_
  rintro ⟨renames, body⟩
  simp only [peel_bare bare_derivedColumn]
  refine bind_eq_of_map ?_
  rintro ⟨derived, body⟩
  simp only [peelOne_bare bare_columns]
  refine bind_eq_of_map ?_
  rintro ⟨projection, body⟩
  simp only [peelOne_bare conditionText_bare]
  refine bind_eq_of_map ?_
  rintro ⟨condition, body⟩
  simp only [relation_bare]

end Subtree

namespace Tree

variable {t u : Tree} {g : Grammar} {roots : KindSet} {c : Contract}

theorem Alike.select_eq (h : t.Alike u) : t.select = u.select := by
  obtain ⟨_, ⟨s, ht, rfl⟩, ⟨s', hu, hbare⟩⟩ := h
  rw [select, select, ht.subtree_eq, hu.subtree_eq, ← s.select_bare, ← hbare, s'.select_bare]

/-- Trees that are alike are printed as one statement. Where they cannot be printed, at most the
number of the node differs that the message names. -/
theorem Alike.sql_eq (h : t.Alike u) (aliasBranches : Bool) :
    (t.sql g roots aliasBranches).mapError Error.unnumbered =
      (u.sql g roots aliasBranches).mapError Error.unnumbered := by
  cases hdeviation : t.deviation? g roots with
  | none =>
      rw [sql, sql, hdeviation, h.deviation?_eq_none hdeviation, h.select_eq]
  | some node =>
      obtain ⟨node', hdeviation', hkind, _⟩ := h.lift hdeviation
      rw [sql, sql, hdeviation, hdeviation']
      dsimp only
      rw [hkind]
      rfl

/-- Normalizing trees of one expression fails for the same cause, or takes as many lifts and gives
the very same tree. -/
theorem Intact.result_normalize_eq (ht : t.Intact c) (hu : u.Intact c) (h : t.toExpr = u.toExpr)
    (budget : Nat) :
    (Edit.normalize g roots budget).result t = (Edit.normalize g roots budget).result u := by
  obtain ⟨s, graves, hholds, _⟩ := id ht
  obtain ⟨s', graves', hholds', _⟩ := id hu
  obtain ⟨outcomes, ending, hsettles⟩ := Edit.exists_settles g roots hholds.represents
  obtain ⟨outcomes', ending', hsettles', houtcomes, hending⟩ :=
    hsettles.alike (ht.alike hu h)
  have hlength : outcomes'.length = outcomes.length := by
    simpa using congrArg List.length houtcomes
  have hcount : outcomes'.foldl Tally.count .zero = outcomes.foldl Tally.count .zero := by
    rw [← Edit.foldl_count_unnumbered, houtcomes, Edit.foldl_count_unnumbered]
  rw [Edit.result_normalize, Edit.result_normalize, hsettles.liftAll_eq hholds.represents,
    hsettles'.liftAll_eq hholds'.represents]
  cases ending with
  | canonical last =>
      cases ending' with
      | stuck => exact hending.elim
      | canonical last' =>
          have hcompact : last'.compact = last.compact := by
            rw [(hu.of_settles hsettles').compact_eq, (ht.of_settles hsettles).compact_eq,
              Alike.toExpr_eq hending]
          rw [Edit.Ending.within, Edit.Ending.within, hlength, hcount]
          split
          · simp only [Except.map, hcompact]
          · rfl
  | stuck cause =>
      cases ending' with
      | canonical => exact hending.elim
      | stuck cause' =>
          obtain rfl : cause' = cause := hending
          rw [Edit.Ending.within, Edit.Ending.within, hlength]

/-- Whatever has been done to them before, two trees of one expression are from there on the same.
A normalization fails for the same cause with both, or it takes as many lifts and absorbs as many
nodes and gives the very same tree. Inlining a view fails for the same cause with both, or inlines
it as often and gives trees of one expression. And both are printed as one statement or fail to be
for the same cause, but for the number of the node that the message may name. -/
theorem Reached.same_results (ht : Reached c t) (hu : Reached c u) (h : t.toExpr = u.toExpr)
    (g : Grammar) (roots : KindSet) :
    (∀ budget,
      (Edit.normalize g roots budget).result t = (Edit.normalize g roots budget).result u) ∧
    (∀ view, Reached c view → ((Edit.inline view).result t).map (Prod.map id toExpr) =
      ((Edit.inline view).result u).map (Prod.map id toExpr)) ∧
    ∀ aliasBranches, (t.sql g roots aliasBranches).mapError Error.unnumbered =
      (u.sql g roots aliasBranches).mapError Error.unnumbered := by
  refine ⟨ht.intact.result_normalize_eq hu.intact h, ?_,
    (ht.intact.alike hu.intact h).sql_eq⟩
  intro view hview
  rw [ht.intact.inline_eq hview.intact, hu.intact.inline_eq hview.intact, h]

/-- A query that a view has been inlined into, and the query written down with the view in place. In
the first, the node that read the view is dead. -/
theorem Reached.same_results_inlined :
    let body := Expr.rename "a" "b" (.input1 "t")
    ∃ view target t u, ofExpr (.assign "v" body) = .ok view ∧
      ofExpr (.assign "V" (.condition (.name "a") (.input1 "v"))) = .ok target ∧
      ofExpr (.assign "V" (.condition (.name "a") body)) = .ok t ∧
      u = (Edit.inline view).left target ∧ t.toExpr = u.toExpr ∧ t ≠ u ∧
      (∀ budget, (Edit.normalize .flatSelect (.ofList [.assign]) budget).result t =
        (Edit.normalize .flatSelect (.ofList [.assign]) budget).result u) ∧
      (t.sql .flatSelect (.ofList [.assign]) true).mapError Error.unnumbered =
        (u.sql .flatSelect (.ofList [.assign]) true).mapError Error.unnumbered ∧
      t.sql .flatSelect (.ofList [.assign]) true ≠ u.sql .flatSelect (.ofList [.assign]) true := by
  intro body
  let view := planted (.assign "v" body)
  let target := planted (.assign "V" (.condition (.name "a") (.input1 "v")))
  let t := planted (.assign "V" (.condition (.name "a") body))
  let u := (Edit.inline view).left target
  have hview : ofExpr (.assign "v" body) = .ok view := ofExpr_eq_ok.mpr ⟨rfl, rfl⟩
  have htarget : ofExpr (.assign "V" (.condition (.name "a") (.input1 "v"))) = .ok target :=
    ofExpr_eq_ok.mpr ⟨rfl, rfl⟩
  have ht : ofExpr (.assign "V" (.condition (.name "a") body)) = .ok t :=
    ofExpr_eq_ok.mpr ⟨rfl, rfl⟩
  have hexpr : t.toExpr = u.toExpr := by decide +kernel
  have hreached : Reached .strict u := .inline (.built hview) (.built htarget)
  obtain ⟨hnormalize, _, hsql⟩ :=
    Reached.same_results (.built ht) hreached hexpr .flatSelect (.ofList [.assign])
  exact ⟨view, target, t, u, hview, htarget, ht, rfl, hexpr, by decide +kernel, hnormalize,
    hsql true, by decide +kernel⟩

end Tree

end FlatSelect
