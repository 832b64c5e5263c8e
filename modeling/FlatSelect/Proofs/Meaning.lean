import FlatSelect.Proofs.Derived
import FlatSelect.Proofs.Flattening
import FlatSelect.Proofs.Reading

/-!
# What normalization does to the meaning of a query

A well scoped query without derived columns means the same when it is normalized: its columns are
shown in their order and under their names, each as what its name stands for, and the conditions ask
for the same (`Query.normalize_keeps_meaning`).

Derived columns are each shown once, but not always as what they stand for
(`Query.derived_column_kept_iff`). A rename that no listed column needs is dropped, although the
source of a derived column may need it (`Query.derived_column_lost`).
-/

namespace FlatSelect

namespace Query

variable {base entries : List String} {layers below : List Layer} {target relation : String}
  {budget : Nat}

theorem clauses_table (target relation : String) (layers : List Layer) :
    (Query.mk target layers (.table relation)).clauses = layers.foldlM Clauses.add .empty := by
  rw [clauses]
  cases layers.foldlM Clauses.add .empty <;> rfl

/-- A normalization that succeeds makes a tree that reads as the clauses of the query. -/
theorem select_of_normalize {q : Query} {t flat : Tree} {tally : Tally}
    (ht : t.Bears q.toExpr.bare)
    (hrun : Edit.normalize .flatSelect queryRoots budget t = .ok tally flat) :
    ∃ c, q.clauses = .ok c ∧ flat.select = .ok (q.selectOf c) := by
  obtain ⟨flatQuery, hflatten, hflat⟩ := flatten_of_normalize ht hrun
  rw [flatten] at hflatten
  cases hclauses : q.clauses with
  | error cause =>
      rw [hclauses] at hflatten
      cases hflatten
  | ok c =>
      rw [hclauses] at hflatten
      cases hflatten
      exact ⟨c, rfl, (Tree.bears_of_ofExpr hflat).select_eq⟩

/-- A well scoped query without derived columns is normalized to a flat select that shows the
columns of the query, in their order and under their names, each as what its name stands for. Its
predicate asks for all that the conditions of the query ask for. -/
theorem normalize_keeps_meaning (target relation : String) (hbase : base.Nodup)
    (hscoped : Layer.WellScoped base layers)
    (hkind : ∀ layer ∈ layers, layer.kind ≠ .extraColumn)
    (hprojected : ∃ layer ∈ layers, layer.kind = .projection) (hbudget : layers.length ≤ budget) :
    ∃ t tally flat s,
      Tree.ofExpr (.assign target (Layer.stack layers (.input1 relation))) = .ok t ∧
      Edit.normalize .flatSelect queryRoots budget t = .ok tally flat ∧
      flat.select = .ok s ∧
      s.target = target ∧ s.relation = .table relation ∧
      s.outputColumns.map OutputColumn.named =
        (Layer.names base layers).map (fun name => (name, Layer.resolve layers name)) ∧
      s.condition = (Formula.conjunction (Layer.filters base layers)).map Formula.text := by
  let q : Query := ⟨target, layers, .table relation⟩
  obtain ⟨t, ht⟩ := q.exists_tree
  obtain ⟨c, hadd⟩ := Clauses.exists_add hkind .empty
  have hclauses : q.clauses = .ok c := (clauses_table ..).trans hadd
  have hflatten : q.flatten = .ok (q.withClauses c) := by rw [flatten, hclauses, Except.map]
  have hnormalize := normalize_eq_flatten (Tree.bears_of_ofExpr ht) (q := q) hbudget
  rw [hflatten] at hnormalize
  obtain ⟨tally, flat, hflat, hrun⟩ := hnormalize
  obtain ⟨entries, hentries, hcolumns⟩ :=
    Clauses.columns_of_underived hbase hscoped.scoped hkind hprojected rfl rfl hadd
  have hempty : Clauses.empty.condition = Formula.conjunction [] := rfl
  have hcondition := Clauses.condition_of_add hscoped.scoped hempty hadd
  refine ⟨t, tally, flat, q.selectOf c, ht, hrun, (Tree.bears_of_ofExpr hflat).select_eq, rfl, rfl,
    ?_, ?_⟩
  · exact (Select.map_outputColumns (s := q.selectOf c) hentries).trans hcolumns
  · exact congrArg (Option.map Formula.text) hcondition

/-- Two conditions with a renamed column, between two projections and two renames. -/
def exampleChain : List Layer :=
  [.condition (.binary .less rfl (.name "x") (.name "3")), .rename "x" "b", .projection ["b", "c"],
    .rename "b" "a", .condition (.binary .equals rfl (.name "a") (.name "c")),
    .projection ["a", "c"]]

theorem normalize_keeps_meaning_chain :
    ["a", "b", "c"].Nodup ∧ Layer.WellScoped ["a", "b", "c"] exampleChain ∧
    (∀ layer ∈ exampleChain, layer.kind ≠ .extraColumn) ∧
    (∃ layer ∈ exampleChain, layer.kind = .projection) ∧ exampleChain.length ≤ 6 ∧
    ∃ t tally flat s,
      Tree.ofExpr (.assign "T" (Layer.stack exampleChain (.input1 "t"))) = .ok t ∧
      Edit.normalize .flatSelect queryRoots 6 t = .ok tally flat ∧
      flat.select = .ok s ∧
      s.target = "T" ∧ s.relation = .table "t" ∧
      s.outputColumns.map OutputColumn.named = [("x", "a"), ("c", "c")] ∧
      s.condition = some "(((a) < (3)) AND ((a) = (c)))" := by
  have hbase : ["a", "b", "c"].Nodup := by decide
  have hscoped : Layer.WellScoped ["a", "b", "c"] exampleChain := by decide
  have hkind : ∀ layer ∈ exampleChain, layer.kind ≠ .extraColumn := by decide
  have hprojected : ∃ layer ∈ exampleChain, layer.kind = .projection := by decide
  have hbudget : exampleChain.length ≤ 6 := by decide
  refine ⟨hbase, hscoped, hkind, hprojected, hbudget, ?_⟩
  exact normalize_keeps_meaning "T" "t" hbase hscoped hkind hprojected hbudget

/-- However a query with derived columns is normalized, the flat select shows one column of each
name that the outermost projection lists. It is what the name stands for just if `Layer.shown` has
it so: the source of a derived column is followed through the renames that stay, and no others.
Columns that are not derived are what their names stand for. -/
theorem derived_column_kept_iff (target relation : String)
    (hscoped : Layer.WellScoped base (.projection entries :: below)) :
    ∃ t, Tree.ofExpr (.assign target
        (.projection entries (Layer.stack below (.input1 relation)))) = .ok t ∧
      ∀ budget tally flat, Edit.normalize .flatSelect queryRoots budget t = .ok tally flat →
        ∃ s, flat.select = .ok s ∧ ∀ name ∈ entries, ∃ column,
          s.outputColumns.filter (·.visibleName = name) = [column] ∧
          (column.expr = Layer.resolve below name ↔
            (name, Layer.resolve below name) ∈ Layer.shown below entries []) ∧
          (Layer.derives below name = false → column.expr = Layer.resolve below name) ∧
          (Layer.Unmixed below entries [] → column.expr = Layer.shownAs below entries name) := by
  let q : Query := ⟨target, .projection entries :: below, .table relation⟩
  have hbelow := hscoped.scoped.tail
  have hselects : Layer.Selects base below entries := ⟨hscoped.1.1.1, hscoped.1.1.2⟩
  obtain ⟨t, ht⟩ := q.exists_tree
  refine ⟨t, ht, ?_⟩
  intro budget tally flat hrun
  obtain ⟨c, hclauses, hselect⟩ := select_of_normalize (q := q) (Tree.bears_of_ofExpr ht) hrun
  have hadd : below.foldlM Clauses.add (Clauses.empty.addProjection entries) = .ok c :=
    (clauses_table ..).symm.trans hclauses
  obtain ⟨entries', hentries, hcolumns⟩ := Clauses.columns_of_add hbelow hselects rfl hadd
  have hnamed : (q.selectOf c).outputColumns.map OutputColumn.named =
      Layer.shown below entries [] :=
    (Select.map_outputColumns (s := q.selectOf c) hentries).trans hcolumns
  have hperm : ((q.selectOf c).outputColumns.map OutputColumn.visibleName).Perm entries := by
    have hnames := Layer.map_fst_shown_perm hbelow hselects []
    rw [← hnamed, List.map_map, List.map_nil, List.append_nil] at hnames
    exact hnames
  refine ⟨q.selectOf c, hselect, ?_⟩
  intro name hname
  obtain ⟨column, hcolumn, hexpr⟩ := OutputColumn.exists_only
    (hperm.nodup_iff.mpr hselects.nodup) (hperm.mem_iff.mpr hname)
  rw [hnamed] at hexpr
  refine ⟨column, hcolumn, hexpr _, ?_, ?_⟩
  · intro hderives
    exact (hexpr _).mpr (Layer.mem_shown_of_underived hbelow hselects hname hderives)
  · intro hunmixed
    have hshown := @Layer.shown_perm_of_unmixed _ base below entries [] hbelow
      hselects hunmixed
    apply (hexpr _).mpr
    apply hshown.mem_iff.mpr
    apply List.mem_append_left
    exact List.mem_map_of_mem hname

/-- A derived column whose source is renamed next below. -/
def exampleSource : List Layer :=
  [.extraColumn "d" "b", .rename "b" "a"]

/-- The rename stays if its column is listed too. -/
theorem derived_column_kept_iff_beside_source :
    Layer.WellScoped ["a"] (.projection ["d", "b"] :: exampleSource) ∧
    ∃ t tally flat s column,
      Tree.ofExpr (.assign "T" (.projection ["d", "b"] (Layer.stack exampleSource (.input1 "t")))) =
        .ok t ∧
      Edit.normalize .flatSelect queryRoots 3 t = .ok tally flat ∧ flat.select = .ok s ∧
      s.outputColumns.filter (·.visibleName = "d") = [column] ∧ column.expr = "a" := by
  let q : Query := ⟨"T", .projection ["d", "b"] :: exampleSource, .table "t"⟩
  have hscoped : Layer.WellScoped ["a"] (.projection ["d", "b"] :: exampleSource) := by decide
  have hclauses : q.clauses = .ok ⟨[("b", "a")], [("d", "a")], some ["a"], none⟩ := by rfl
  have hbudget : q.layerCount ≤ 3 := by decide
  obtain ⟨t, ht, hkept⟩ := derived_column_kept_iff "T" "t" hscoped
  have hnormalize := normalize_eq_flatten (q := q) (Tree.bears_of_ofExpr ht) hbudget
  rw [flatten, hclauses] at hnormalize
  obtain ⟨tally, flat, _, hrun⟩ := hnormalize
  obtain ⟨s, hselect, hcolumns⟩ := hkept 3 tally flat hrun
  obtain ⟨column, hcolumn, hiff, _, _⟩ := hcolumns "d" (by decide)
  exact ⟨hscoped, t, tally, flat, s, column, ht, hrun, hselect, hcolumn, hiff.mpr (by decide)⟩

/-- Otherwise the rename is lost, and the derived column is shown as a column `b`, which there is
not. -/
theorem derived_column_lost :
    Layer.WellScoped ["a"] (.projection ["d"] :: exampleSource) ∧
    Layer.derives exampleSource "d" = true ∧ Layer.resolve exampleSource "d" = "a" ∧
    ∃ t tally flat s,
      Tree.ofExpr (.assign "T" (.projection ["d"] (Layer.stack exampleSource (.input1 "t")))) =
        .ok t ∧
      Edit.normalize .flatSelect queryRoots 3 t = .ok tally flat ∧ flat.select = .ok s ∧
      s.outputColumns = [⟨"b", some "d"⟩] := by
  let q : Query := ⟨"T", .projection ["d"] :: exampleSource, .table "t"⟩
  let c : Clauses := ⟨[], [("d", "b")], some [], none⟩
  have hscoped : Layer.WellScoped ["a"] (.projection ["d"] :: exampleSource) := by decide
  have hclauses : q.clauses = .ok c := by rfl
  have hbudget : q.layerCount ≤ 3 := by decide
  refine ⟨hscoped, by decide, by decide, ?_⟩
  obtain ⟨t, ht⟩ := q.exists_tree
  have hnormalize := normalize_eq_flatten (Tree.bears_of_ofExpr ht) hbudget
  rw [flatten, hclauses] at hnormalize
  obtain ⟨tally, flat, hflat, hrun⟩ := hnormalize
  exact ⟨t, tally, flat, q.selectOf c, ht, hrun, (Tree.bears_of_ofExpr hflat).select_eq, by rfl⟩

end Query

end FlatSelect
