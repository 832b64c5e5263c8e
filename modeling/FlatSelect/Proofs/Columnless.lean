import FlatSelect.Pipeline
import FlatSelect.Proofs.Listing
import FlatSelect.Proofs.Reloading
import FlatSelect.Proofs.Renumbering

/-!
# Selects without columns

A select that is read off a tree has columns if all projections of the tree list some, or if a
derived column is at its top (`Subtree.Shows.outputColumns_ne_nil`). Inlining puts lists where there
were names, and changes none. So a pipeline that starts with lists of columns ends with a statement
that has columns, unless on the way a projection is absorbed by another one whose list has nothing
in common with its own (`Tree.Reached.compose_columns`). That does happen, and then what is printed
selects nothing (`Tree.compose_prints_no_columns`).
-/

namespace FlatSelect

/-! ### Reading -/

namespace Select

/-- Renames change no number of columns. -/
theorem outputColumns_ne_nil {s : Select}
    (h : ∀ entries, s.projection = some entries → entries ≠ [] ∨ s.derived ≠ []) :
    s.outputColumns ≠ [] := by
  have hrename : ∀ new old (cols : List OutputColumn), cols ≠ [] →
      OutputColumn.renameFirst new old cols ≠ [] := by
    intro new old cols hcols
    cases cols with
    | nil => exact absurd rfl hcols
    | cons c cs =>
        rw [OutputColumn.renameFirst]
        split <;> exact List.cons_ne_nil _ _
  rw [outputColumns]
  split
  · exact List.cons_ne_nil _ _
  case h_2 entries hprojection =>
    have hsource : sourceColumns entries s.derived ≠ [] := by
      simpa [sourceColumns, -not_and, not_and_or] using h entries hprojection
    induction s.renames with
    | nil => exact hsource
    | cons pair rest ih => exact hrename _ _ _ ih

end Select

namespace Subtree

variable {α : Type} {kind : Kind} {clause : Subtree → Except Error α} {s below : Subtree}
  {clauses : List α}

/-- What is peeled off is nothing, or a clause and what is peeled off the operand. -/
theorem peel_cases (h : s.peel kind clause = .ok (clauses, below)) :
    (s.kind ≠ kind ∧ clauses = [] ∧ below = s) ∨
      ∃ first rest operand, s.kind = kind ∧ clauses = first :: rest ∧
        s.child 1 = some operand ∧ operand.peel kind clause = .ok (rest, below) := by
  rw [peel_eq] at h
  split at h
  case isTrue hkind =>
    obtain ⟨first, _, h⟩ := exists_of_bind_eq_ok h
    obtain ⟨operand, hoperand, h⟩ := exists_of_bind_eq_ok h
    obtain ⟨⟨rest, below'⟩, hpeel, h⟩ := exists_of_bind_eq_ok h
    cases h
    exact .inr ⟨first, rest, operand, hkind, rfl, child_of_operand hoperand, hpeel⟩
  case isFalse hkind =>
    cases h
    exact .inl ⟨hkind, rfl, rfl⟩

/-- Below what is peeled off, projections list columns as they do in the whole. -/
theorem ListsColumns.of_peel (h : s.ListsColumns)
    (hpeel : s.peel kind clause = .ok (clauses, below)) : below.ListsColumns := by
  induction clauses generalizing s with
  | nil =>
      rcases peel_cases hpeel with ⟨_, _, rfl⟩ | ⟨_, _, _, _, hclauses, _⟩
      · exact h
      · cases hclauses
  | cons first rest ih =>
      rcases peel_cases hpeel with ⟨_, hclauses, _⟩ | ⟨_, _, operand, _, hclauses, hchild, hrest⟩
      · cases hclauses
      · cases hclauses
        exact ih (h.child hchild) hrest

/-- Below renames a derived column is still at the top. -/
theorem TopDerives.of_peel (h : s.TopDerives)
    (hpeel : s.peel .rename clause = .ok (clauses, below)) : below.TopDerives := by
  induction clauses generalizing s with
  | nil =>
      rcases peel_cases hpeel with ⟨_, _, rfl⟩ | ⟨_, _, _, _, hclauses, _⟩
      · exact h
      · cases hclauses
  | cons first rest ih =>
      rcases peel_cases hpeel with
        ⟨_, hclauses, _⟩ | ⟨_, _, operand, hkind, hclauses, hchild, hrest⟩
      · cases hclauses
      · cases hclauses
        rcases topDerives_iff.mp h with htop | ⟨_, operand', hoperand, hbelow⟩
        · rw [hkind] at htop
          cases htop
        · rw [hchild] at hoperand
          cases hoperand
          exact ih hbelow hrest

/-- A select has columns if all projections list some, or if a derived column is at the top. -/
theorem Shows.outputColumns_ne_nil {select : Select} (h : s.Shows)
    (hselect : s.select = .ok select) : select.outputColumns ≠ [] := by
  rw [Subtree.select] at hselect
  split at hselect
  case isTrue => cases hselect
  case isFalse hkind =>
    obtain ⟨target, _, hselect⟩ := exists_of_bind_eq_ok hselect
    obtain ⟨body, hbody, hselect⟩ := exists_of_bind_eq_ok hselect
    obtain ⟨⟨renames, body₁⟩, hrenames, hselect⟩ := exists_of_bind_eq_ok hselect
    obtain ⟨⟨derived, body₂⟩, hderived, hselect⟩ := exists_of_bind_eq_ok hselect
    obtain ⟨⟨projection, body₃⟩, hprojection, hselect⟩ := exists_of_bind_eq_ok hselect
    obtain ⟨⟨condition, body₄⟩, _, hselect⟩ := exists_of_bind_eq_ok hselect
    obtain ⟨relation, _, hselect⟩ := exists_of_bind_eq_ok hselect
    cases hselect
    replace hbody := child_of_operand hbody
    refine Select.outputColumns_ne_nil fun entries hentries => ?_
    -- There is a projection, and its entries are read off it.
    obtain rfl : projection = some entries := hentries
    rw [peelOne] at hprojection
    split at hprojection
    case isFalse => cases hprojection
    case isTrue hkind₂ =>
      obtain ⟨_, hcolumns, hprojection⟩ := exists_of_bind_eq_ok hprojection
      obtain ⟨_, _, hprojection⟩ := exists_of_bind_eq_ok hprojection
      cases hprojection
      rcases h with hlists | htop
      · have hbelow := ((hlists.child hbody).of_peel hrenames).of_peel hderived
        exact .inl (hbelow.columns_ne_nil hkind₂ hcolumns)
      · refine .inr fun hnone => ?_
        have hassign : s.kind = .assign := not_not.mp hkind
        have hbelow : body.TopDerives := by
          rcases topDerives_iff.mp htop with hcolumn | ⟨_, operand, hoperand, hbelow⟩
          · rw [hassign] at hcolumn
            cases hcolumn
          · rw [hbody] at hoperand
            cases hoperand
            exact hbelow
        -- Without derived columns the projection itself would have to be one, or a rename.
        rcases peel_cases hderived with ⟨hne, _, rfl⟩ | ⟨_, _, _, _, hclauses, _⟩
        · rcases topDerives_iff.mp (hbelow.of_peel hrenames) with hcolumn | ⟨hother, _⟩
          · exact hne hcolumn
          · rw [hkind₂] at hother
            rcases hother with hother | hother <;> cases hother
        · cases hnone.symm.trans hclauses

end Subtree

/-! ### Inlining -/

namespace Expr

variable {c : Contract} {name : String} {body : Expr}

theorem listsColumns_bare_iff {kind : Kind} {value : Option Value} {children : List Expr} :
    (Expr.node kind value children).bare.ListsColumns ↔
      (kind = .projection → children[0]?.bind Expr.value ≠ some (.columns [])) ∧
        ∀ e ∈ children, e.bare.ListsColumns := by
  rw [Subtree.listsColumns_iff, slotValue_bare]
  refine and_congr Iff.rfl ?_
  constructor
  · intro h e he
    exact h e.bare (mem_bareAll.mpr ⟨e, he, rfl⟩)
  · intro h child hchild
    obtain ⟨e, he, rfl⟩ := mem_bareAll.mp hchild
    exact h e he

theorem listsColumns_inlinedBranch {e e' : Expr} (hbody : body.bare.ListsColumns)
    (h : e.bare.ListsColumns) (hinlined : inlinedBranch? name body e = some e') :
    e'.bare.ListsColumns := by
  obtain ⟨kind, value, children⟩ := e
  cases kind
  case constant =>
    rw [inlinedBranch?] at hinlined
    split at hinlined
    · cases hinlined
      refine listsColumns_bare_iff.mpr ⟨fun hkind => absurd hkind (by decide), ?_⟩
      intro e he
      simp only [List.mem_cons, List.not_mem_nil, or_false] at he
      rcases he with rfl | rfl
      · exact listsColumns_bare_iff.mpr
          ⟨fun hkind => absurd hkind (by decide), fun e he => absurd he List.not_mem_nil⟩
      · exact hbody
    · cases hinlined
  case renameAll =>
    rw [inlinedBranch?] at hinlined
    split at hinlined
    · cases hinlined
      refine listsColumns_bare_iff.mpr ⟨fun hkind => absurd hkind (by decide), fun e he => ?_⟩
      rcases List.mem_or_eq_of_mem_set he with he | rfl
      · exact (listsColumns_bare_iff.mp h).2 e he
      · exact hbody
    · cases hinlined
  all_goals cases hinlined

mutual
/-- Inlining a body in which projections list columns brings in no list of nothing. -/
theorem listsColumns_inlined (hbody : body.bare.ListsColumns) : ∀ {e : Expr}, e.bare.Regular c →
    e.bare.ListsColumns → (inlined name body e).bare.ListsColumns
  | .node kind value children, hreg, h => by
    rw [inlined]
    split
    · exact hbody
    · obtain ⟨hlist, hchildren⟩ := listsColumns_bare_iff.mp h
      refine listsColumns_bare_iff.mpr
        ⟨fun hkind => ?_, listsColumns_inlinedAll hbody kind hreg.2 hchildren⟩
      have hkeeps : kind.hasParameter = true := by
        rw [hkind]
        rfl
      obtain ⟨v, hv, _⟩ := hreg.proper.parameter hkeeps
      have hchild := (slotValue_bare kind value children 0).symm.trans hv
      rw [parameter_inlinedAll hkeeps hreg.2 hchild, ← hchild]
      exact hlist hkind
theorem listsColumns_inlinedAll (hbody : body.bare.ListsColumns) (parent : Kind) :
    ∀ {es : List Expr}, Subtree.RegularAll c (bareAll es) → (∀ e ∈ es, e.bare.ListsColumns) →
      ∀ e ∈ inlinedAll name body parent es, e.bare.ListsColumns
  | [], _, _ => fun e he => absurd he List.not_mem_nil
  | first :: rest, hreg, h => by
    have hlists := h first List.mem_cons_self
    have hfirst : (inlined name body first).bare.ListsColumns :=
      listsColumns_inlined hbody hreg.1 hlists
    intro e he
    rcases List.mem_cons.mp he with rfl | he
    · split
      · cases hbranch : inlinedBranch? name body first with
        | none => exact hfirst
        | some e' => exact listsColumns_inlinedBranch hbody hlists hbranch
      · exact hfirst
    · exact listsColumns_inlinedAll hbody parent hreg.2
        (fun e he => h e (List.mem_cons_of_mem first he)) e he
end

end Expr

theorem Subtree.listsColumns_toExpr {s : Subtree} (h : s.full = true) :
    s.toExpr.bare.ListsColumns ↔ s.ListsColumns := by
  rw [← bare_eq_of_full h, listsColumns_bare]

/-! ### Whole trees -/

namespace Tree

variable {c : Contract} {roots : KindSet} {t t' view : Tree} {s : Subtree} {graves : Records}

/-- Every projection of a tree lists columns. -/
def ListsColumns (t : Tree) : Prop :=
  (t.subtree t.root).ListsColumns

instance (t : Tree) : Decidable t.ListsColumns :=
  inferInstanceAs (Decidable (t.subtree t.root).ListsColumns)

/-- All projections of a tree list columns, or it has a derived column at the top. -/
def Shows (t : Tree) : Prop :=
  (t.subtree t.root).Shows

/-- All projections list columns, the first deviation is a projection, and when it is lifted it is
absorbed and leaves a projection that lists nothing. -/
def Empties (g : Grammar) (roots : KindSet) (t : Tree) : Prop :=
  ∃ node steps t', t.deviation? g roots = some node ∧ t.kind node = .projection ∧
    Edit.lift g node t = .ok (.absorbed steps) t' ∧ t.ListsColumns ∧ ¬ t'.ListsColumns

theorem Holds.listsColumns_iff (h : t.Holds s graves) : t.ListsColumns ↔ s.ListsColumns := by
  rw [ListsColumns, h.subtree_eq]

theorem Holds.shows_iff (h : t.Holds s graves) : t.Shows ↔ s.Shows := by
  rw [Shows, h.subtree_eq]

namespace Intact

/-- Lifting the first deviation leaves columns in all lists, or a derived column at the top, unless
it empties a list. -/
theorem shows_of_lift {node : NodeId} {outcome : Lift.Outcome} (h : t.Intact c)
    (hdeviation : t.deviation? .flatSelect roots = some node)
    (hlift : Edit.lift .flatSelect node t = .ok outcome t') (hshows : t.Shows) :
    t'.Shows ∨ t.Empties .flatSelect roots := by
  have hfirst := hdeviation
  obtain ⟨s, graves, hholds, hreg, _⟩ := h
  rw [deviation?, hholds.subtree_eq] at hfirst
  obtain ⟨path, below, rfl, rfl, hclear, _⟩ := Subtree.exists_path_of_deviation hfirst
  obtain ⟨whole, gone, hwhole, _, hholds'⟩ := hholds.of_lift hlift
  rw [hholds'.shows_iff]
  rw [hholds.shows_iff] at hshows
  have hends := hreg.shows_of_lift hclear hwhole hshows
  rcases hshows with hlists | htop
  case inr => exact .inl (.inr (hreg.topDerives_of_lift hwhole htop))
  cases outcome with
  | alreadyLegal | relocated => exact .inl hends
  | absorbed steps =>
      rcases hends with hshown | hkind
      · exact .inl hshown
      by_cases hlists' : whole.ListsColumns
      · exact .inl (.inl hlists')
      · refine .inr ⟨below.id, steps, t', hdeviation, ?_, hlift, ?_, ?_⟩
        · rw [hholds.represents.kind_foot, hkind]
        · exact hholds.listsColumns_iff.mpr hlists
        · rwa [hholds'.listsColumns_iff]

theorem shows_of_settles {outcomes : List Lift.Outcome} {last : Tree} (h : t.Intact c)
    (hsettles : Edit.Settles .flatSelect roots t outcomes (.canonical last)) (hshows : t.Shows) :
    last.Shows ∨ ∃ nodes before, Edit.LiftsInTurn .flatSelect roots t nodes before ∧
      before.Empties .flatSelect roots := by
  generalize hending : Edit.Ending.canonical last = ending at hsettles
  induction hsettles with
  | canonical =>
      cases hending
      exact .inl hshows
  | stuck => cases hending
  | lift hdeviation hlift _ ih =>
      rcases h.shows_of_lift hdeviation hlift hshows with hshows' | hempties
      · rcases ih (h.lift hlift) hshows' hending with hlast | ⟨nodes, before, hnodes, hempties⟩
        · exact .inl hlast
        · exact .inr ⟨_, before, .lift hdeviation hlift hnodes, hempties⟩
      · exact .inr ⟨[], _, .done _, hempties⟩

/-- Numbers make no difference to what a tree shows. -/
theorem shows_compact (h : t.Intact c) (hshows : t.Shows) : t.compact.Shows := by
  obtain ⟨s, graves, hholds, hreg, _⟩ := h
  obtain ⟨flat, hflat, hexpr, hfull, _⟩ := hholds.compact hreg.full
  have hbare : flat.bare = s.bare := by
    rw [Subtree.bare_eq_of_full hfull, Subtree.bare_eq_of_full hreg.full, hexpr]
  rw [hholds.shows_iff] at hshows
  rw [hflat.shows_iff]
  refine hshows.imp (fun hlists => ?_) fun htop => ?_
  · rwa [← Subtree.listsColumns_bare, hbare, Subtree.listsColumns_bare]
  · rwa [← Subtree.topDerives_bare, hbare, Subtree.topDerives_bare]

theorem listsColumns_of_inline {count : Nat} (h : t.Intact c) (hview : view.Intact c)
    (hrun : Edit.inline view t = .ok count t') (hviewLists : view.ListsColumns)
    (hlists : t.ListsColumns) : t'.ListsColumns := by
  obtain ⟨s, graves, hholds, hreg, _⟩ := h
  obtain ⟨top, graves', hholds', htop, _⟩ := hview
  obtain ⟨name, body, s', gone, hasView, hresult, hbecomes, hreg', _⟩ :=
    hholds.inline hreg hholds' htop hrun
  obtain ⟨_, _, hchild⟩ := hholds'.asView_eq_ok.mp hasView
  have hbody : body.ListsColumns := (hholds'.listsColumns_iff.mp hviewLists).child hchild
  obtain ⟨f, rfl, _⟩ := Subtree.exists_frame hchild
  have hfull : body.full = true := (Frame.regular_fill.mp htop).2.2.full
  rw [hresult.listsColumns_iff, ← Subtree.listsColumns_toExpr hreg'.full, hbecomes.toExpr_eq]
  refine Expr.listsColumns_inlined ((Subtree.listsColumns_toExpr hfull).mpr hbody)
    ((Subtree.regular_toExpr hreg.full).mpr hreg) ?_
  rw [Subtree.listsColumns_toExpr hreg.full]
  exact hholds.listsColumns_iff.mp hlists

theorem listsColumns_of_inlineAll {views : List Tree} (h : t.Intact c)
    (hviews : ∀ view ∈ views, view.Intact c ∧ view.ListsColumns)
    (hrun : Edit.inlineAll views t = .ok () t') (hlists : t.ListsColumns) :
    t'.Intact c ∧ t'.ListsColumns := by
  induction views generalizing t with
  | nil =>
      cases hrun
      exact ⟨h, hlists⟩
  | cons view views ih =>
      rw [Edit.inlineAll, Edit.bind_apply] at hrun
      cases hinline : Edit.inline view t with
      | error cause left =>
          rw [hinline] at hrun
          cases hrun
      | ok count next =>
          rw [hinline] at hrun
          obtain ⟨hview, hviewLists⟩ := hviews view List.mem_cons_self
          exact ih (h.inline hview hinline)
            (fun view hmem => hviews view (List.mem_cons_of_mem _ hmem)) hrun
            (h.listsColumns_of_inline hview hinline hviewLists hlists)

end Intact

end Tree

namespace Pipeline

variable {p : Pipeline} {views : List Tree} {t t' : Tree} {text : String}

/-- The three parts of a composition that succeeds. -/
theorem exists_of_compose_eq_ok (h : p.compose views t = .ok text t') :
    ∃ inlined tally, Edit.inlineAll views t = .ok () inlined ∧
      p.normalize inlined = .ok tally t' ∧ p.sql t' = .ok text := by
  rw [compose, Edit.atomically_eq_ok_iff, Edit.bind_apply] at h
  cases hinline : Edit.inlineAll views t with
  | error => simp [hinline] at h
  | ok _ inlined =>
      rw [hinline] at h
      dsimp only at h
      rw [Edit.bind_apply] at h
      cases hnormalize : p.normalize inlined with
      | error => simp [hnormalize] at h
      | ok tally flat =>
          rw [hnormalize] at h
          dsimp only at h
          rw [Edit.get_bind] at h
          cases hsql : p.sql flat with
          | error =>
              rw [hsql] at h
              cases h
          | ok =>
              rw [hsql] at h
              cases h
              exact ⟨inlined, tally, rfl, hnormalize, hsql⟩

/-- What is printed has been read as a select. -/
theorem exists_of_sql_eq_ok (h : p.sql t = .ok text) : ∃ select, t.select = .ok select := by
  rw [sql, Tree.sql] at h
  split at h
  · cases h
  · cases hselect : t.select with
    | error =>
        rw [hselect] at h
        cases h
    | ok select => exact ⟨select, rfl⟩

end Pipeline

namespace Tree

variable {t t' : Tree} {views : List Tree} {settings : Settings} {text : String}

/-- Where a pipeline succeeds on a target and views whose projections all list columns, what it has
printed is a select that has columns, or a projection has been absorbed on the way and has left a
list of nothing. -/
theorem Reached.compose_columns (h : Reached .strict t) (hlists : t.ListsColumns)
    (hviews : ∀ view ∈ views, Reached .strict view ∧ view.ListsColumns)
    (hrun : (Pipeline.mk .flatSelect settings).compose views t = .ok text t') :
    ∃ select, t'.select = .ok select ∧
      (select.outputColumns ≠ [] ∨ ∃ inlined nodes before,
        Edit.inlineAll views t = .ok () inlined ∧
        Edit.LiftsInTurn .flatSelect settings.roots inlined nodes before ∧
        before.Empties .flatSelect settings.roots) := by
  obtain ⟨inlined, tally, hinline, hnormalize, hsql⟩ := Pipeline.exists_of_compose_eq_ok hrun
  obtain ⟨select, hselect⟩ := Pipeline.exists_of_sql_eq_ok hsql
  obtain ⟨hintact, hinlined⟩ := h.intact.listsColumns_of_inlineAll
    (fun view hmem => ⟨(hviews view hmem).1.intact, (hviews view hmem).2⟩) hinline hlists
  obtain ⟨s, graves, hholds, _⟩ := id hintact
  obtain ⟨outcomes, last, hsettles, _, _, rfl⟩ :=
    Edit.exists_settles_of_normalize hholds.represents hnormalize
  refine ⟨select, hselect, ?_⟩
  rcases hintact.shows_of_settles hsettles (.inl hinlined) with hlast | ⟨nodes, before, hempties⟩
  · have hshows := (hintact.of_settles hsettles).shows_compact hlast
    exact .inl (Subtree.Shows.outputColumns_ne_nil hshows hselect)
  · exact .inr ⟨inlined, nodes, before, hinline, hempties⟩

/-- A target takes one of the two columns of a view. -/
theorem Reached.compose_columns_of_view :
    let view := Expr.assign "v" (.projection ["a", "b"] (.input1 "t"))
    let target := Expr.assign "T" (.projection ["a"] (.input1 "v"))
    ∃ v t t' select, ofExpr view = .ok v ∧ ofExpr target = .ok t ∧
      Pipeline.standard.compose [v] t = .ok "SELECT a INTO T FROM t" t' ∧
      t'.select = .ok select ∧
      (select.outputColumns ≠ [] ∨ ∃ inlined nodes before,
        Edit.inlineAll [v] t = .ok () inlined ∧
        Edit.LiftsInTurn .flatSelect Settings.standard.roots inlined nodes before ∧
        before.Empties .flatSelect Settings.standard.roots) := by
  intro view target
  let v := planted view
  let t := planted target
  have hview : ofExpr view = .ok v := ofExpr_eq_ok.mpr ⟨rfl, rfl⟩
  have htarget : ofExpr target = .ok t := ofExpr_eq_ok.mpr ⟨rfl, rfl⟩
  have hlists : v.ListsColumns ∧ t.ListsColumns := by decide +kernel
  have hprints : (match Pipeline.standard.compose [v] t with
      | .ok text _ => decide (text = "SELECT a INTO T FROM t")
      | .error _ _ => false) = true := by decide +kernel
  cases hrun : Pipeline.standard.compose [v] t with
  | error => simp [hrun] at hprints
  | ok text t' =>
      rw [hrun] at hprints
      obtain rfl := of_decide_eq_true hprints
      have hviews : ∀ view ∈ [v], Reached .strict view ∧ view.ListsColumns := by
        intro view hmem
        obtain rfl := List.mem_singleton.mp hmem
        exact ⟨.built hview, hlists.1⟩
      obtain ⟨select, hselect, hcolumns⟩ :=
        (Reached.built htarget).compose_columns hlists.2 hviews hrun
      exact ⟨v, t, t', select, hview, htarget, hrun, hselect, hcolumns⟩

/-- A target takes a column that its view does not have. What is printed then selects nothing. -/
theorem compose_prints_no_columns :
    let view := Expr.assign "v" (.projection ["b"] (.input1 "t"))
    let target := Expr.assign "T" (.projection ["a"] (.input1 "v"))
    ∃ v t t' select, ofExpr view = .ok v ∧ ofExpr target = .ok t ∧
      v.ListsColumns ∧ t.ListsColumns ∧
      Pipeline.standard.compose [v] t = .ok "SELECT  INTO T FROM t" t' ∧
      t'.select = .ok select ∧ select.outputColumns = [] := by
  intro view target
  let v := planted view
  let t := planted target
  have hlists : v.ListsColumns ∧ t.ListsColumns := by decide +kernel
  have hprints : (match Pipeline.standard.compose [v] t with
      | .ok text t' => decide (text = "SELECT  INTO T FROM t" ∧
          t'.select.toOption.map Select.outputColumns = some [])
      | .error _ _ => false) = true := by decide +kernel
  cases hrun : Pipeline.standard.compose [v] t with
  | error => simp [hrun] at hprints
  | ok text t' =>
      rw [hrun] at hprints
      obtain ⟨rfl, hcolumns⟩ := of_decide_eq_true hprints
      cases hselect : t'.select with
      | error => simp [hselect, Except.toOption] at hcolumns
      | ok select =>
          rw [hselect] at hcolumns
          exact ⟨v, t, t', select, ofExpr_eq_ok.mpr ⟨rfl, rfl⟩, ofExpr_eq_ok.mpr ⟨rfl, rfl⟩,
            hlists.1, hlists.2, hrun, hselect, Option.some.inj hcolumns⟩

end Tree

end FlatSelect
