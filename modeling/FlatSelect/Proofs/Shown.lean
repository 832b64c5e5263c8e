import FlatSelect.Proofs.Scope
import FlatSelect.Select.Sql
import Mathlib.Data.List.Perm.Basic

/-!
# What a flat select shows

Where no column is called by a wildcard, what the clauses of a flat select show can be told from the
layers, with the list of the columns that are still wanted (`Layer.shown`). A rename stays if its
new name is wanted and a derived column if its alias is. The sources of the derived columns further
out follow the renames that stay.

The clauses that the layers come to show just that (`Clauses.columns_of_add`), and their predicate
has the predicates of all conditions, with the columns resolved (`Clauses.condition_of_add`).
-/

namespace FlatSelect

namespace Columns

variable {entries : List String}

theorem coveringWildcard?_of_plain (h : ∀ entry ∈ entries, Glob.isWildcard entry = false)
    (name : String) : coveringWildcard? entries name = none := by
  refine coveringWildcard?_eq_none_iff.mpr fun entry hentry hwildcard => ?_
  rw [h entry hentry] at hwildcard
  cases hwildcard

/-- Among different names, the first that is replaced is the only one. -/
theorem replace_eq_map (h : entries.Nodup) (new old : String) :
    entries.replace new old = entries.map (Layer.renamed new old) := by
  induction entries with
  | nil => rfl
  | cons entry rest ih =>
      obtain ⟨hentry, hrest⟩ := List.nodup_cons.mp h
      by_cases heq : entry = new
      · subst heq
        rw [List.replace_cons_self, List.map_cons, Layer.renamed_self,
          Layer.map_renamed_of_notMem hentry]
      · rw [List.replace_cons, beq_false_of_ne (Ne.symm heq), List.map_cons,
          Layer.renamed_of_ne heq]
        exact congrArg (entry :: ·) (ih hrest)

theorem foldRename?_of_plain (hplain : ∀ entry ∈ entries, Glob.isWildcard entry = false)
    (hnodup : entries.Nodup) (new old : String) :
    foldRename? entries new old =
      if new ∈ entries then some (entries.map (Layer.renamed new old)) else none := by
  rw [foldRename?, coveringWildcard?_of_plain hplain new, replace_eq_map hnodup]
  rfl

theorem selectDerived_of_plain (hplain : ∀ entry ∈ entries, Glob.isWildcard entry = false)
    (asName : String) : selectDerived entries asName = decide (asName ∈ entries) := by
  rw [Bool.eq_iff_iff, selectDerived_iff, selects_iff, coveringWildcard?_of_plain hplain,
    decide_eq_true_eq]
  exact or_iff_left nofun

theorem unify?_of_plain {a b : String} (ha : Glob.isWildcard a = false)
    (hb : Glob.isWildcard b = false) : unify? a b = if a = b then some a else none := by
  simp [unify?, ha, hb]

theorem eraseDups_of_nodup (h : entries.Nodup) : entries.eraseDups = entries := by
  induction entries with
  | nil => rfl
  | cons entry rest ih =>
      obtain ⟨hentry, hrest⟩ := List.nodup_cons.mp h
      have hothers : rest.filter (fun other => !other == entry) = rest := by
        apply List.filter_eq_self.mpr
        intro other hother
        simpa using ne_of_mem_of_not_mem hother hentry
      rw [List.eraseDups_cons, hothers, ih hrest]

/-- An inner list that has all the columns of the outer one takes nothing away. -/
theorem intersect_of_plain {inner : List String} (hinner : inner.Nodup) (houter : entries.Nodup)
    (hplain : ∀ entry ∈ inner, Glob.isWildcard entry = false)
    (hsub : ∀ entry ∈ entries, entry ∈ inner) : intersect inner entries = entries := by
  have hself : ∀ entry ∈ entries, inner.filterMap (unify? entry) = [entry] := by
    intro entry hentry
    have hunify : ∀ other ∈ inner, unify? entry other = Option.guard (· == entry) other := by
      intro other hother
      rw [unify?_of_plain (hplain entry (hsub entry hentry)) (hplain other hother), Option.guard]
      simp only [eq_comm (a := entry), beq_iff_eq]
      split
      · rename_i heq
        rw [heq]
      · rfl
    rw [List.filterMap_congr hunify, List.filterMap_eq_filter, List.filter_beq,
      List.count_eq_one_of_mem hinner (hsub entry hentry), List.replicate_one]
  rw [intersect, List.flatMap_congr hself, List.flatMap_singleton', eraseDups_of_nodup houter]

end Columns

namespace Layer

/-- The first column of the name `old` gets the name `new`. Columns are given with their names. -/
def relabel (new old : String) : List (String × String) → List (String × String)
  | [] => []
  | (name, expr) :: rest =>
    if name = old then (new, expr) :: rest else (name, expr) :: relabel new old rest

/-- The columns that a flat select shows, with their names, if it comes of layers under a projection
of the `wanted` columns, and has taken the derived columns in `derived` from further out. -/
def shown : List Layer → List String → List (String × String) → List (String × String)
  | [], wanted, derived => wanted.map (fun name => (name, name)) ++ derived
  | rename new old :: below, wanted, derived =>
    if new ∈ wanted then
      relabel new old (shown below (wanted.map (renamed new old))
        (derived.map fun (asName, source) => (asName, renamed new old source)))
    else shown below wanted derived
  | extraColumn asName source :: below, wanted, derived =>
    if asName ∈ wanted then
      shown below (wanted.filter (· ≠ asName)) (derived ++ [(asName, source)])
    else shown below wanted derived
  | projection _ :: below, wanted, derived => shown below wanted derived
  | condition _ :: below, wanted, derived => shown below wanted derived

theorem map_fst_relabel_perm {new old : String} {cols : List (String × String)}
    {names : List String} (h : (cols.map Prod.fst).Perm (old :: names)) :
    ((relabel new old cols).map Prod.fst).Perm (new :: names) := by
  have hrelabel : ∀ cols : List (String × String), old ∈ cols.map Prod.fst →
      ((relabel new old cols).map Prod.fst).Perm (new :: (cols.map Prod.fst).erase old) := by
    intro cols hmem
    induction cols with
    | nil => cases hmem
    | cons col rest ih =>
        obtain ⟨name, expr⟩ := col
        by_cases heq : name = old
        · subst heq
          simp [relabel]
        · have hrest : old ∈ rest.map Prod.fst := by simpa [Ne.symm heq] using hmem
          rw [relabel, if_neg heq, List.map_cons, List.map_cons,
            List.erase_cons_tail (by simpa using heq)]
          exact ((ih hrest).cons name).trans (List.Perm.swap ..)
  have hold : old ∈ cols.map Prod.fst := h.mem_iff.mpr List.mem_cons_self
  refine (hrelabel cols hold).trans (List.Perm.cons new ?_)
  simpa using h.erase old

/-- Where no column has the name, none gets another name. -/
theorem map_renamed_fst_of_notMem {new old : String} {cols : List (String × String)}
    (h : old ∉ cols.map Prod.fst) :
    cols.map (fun col => (renamed old new col.1, col.2)) = cols := by
  refine Eq.trans ?_ (List.map_id cols)
  apply List.map_congr_left
  intro col hcol
  exact Prod.ext (renamed_of_ne (ne_of_mem_of_not_mem (List.mem_map_of_mem hcol) h) new) rfl

/-- If there is one column of a name at most, the first that gets another name is the only one. -/
theorem relabel_eq_map {new old : String} {cols : List (String × String)}
    (h : (cols.map Prod.fst).count old ≤ 1) :
    relabel new old cols = cols.map fun col => (renamed old new col.1, col.2) := by
  induction cols with
  | nil => rfl
  | cons col rest ih =>
      obtain ⟨name, expr⟩ := col
      rw [List.map_cons] at h
      by_cases heq : name = old
      · subst heq
        have hname : name ∉ rest.map Prod.fst := by
          rw [List.count_cons_self] at h
          apply List.count_eq_zero.mp
          omega
        rw [relabel, if_pos rfl, List.map_cons, map_renamed_fst_of_notMem hname, renamed_self]
      · rw [List.count_cons_of_ne heq] at h
        rw [relabel, if_neg heq, List.map_cons, ih h, renamed_of_ne heq]

theorem relabel_append_of_mem {new old : String} {cols : List (String × String)}
    (h : old ∈ cols.map Prod.fst) (rest : List (String × String)) :
    relabel new old (cols ++ rest) = relabel new old cols ++ rest := by
  induction cols with
  | nil => cases h
  | cons col cols ih =>
      obtain ⟨name, expr⟩ := col
      by_cases heq : name = old
      · simp only [List.cons_append, relabel, if_pos heq]
      · have hcols : old ∈ cols.map Prod.fst := by simpa [Ne.symm heq] using h
        simp only [List.cons_append, relabel, if_neg heq, ih hcols]

theorem relabel_append_of_notMem {new old : String} {cols : List (String × String)}
    (h : old ∉ cols.map Prod.fst) (rest : List (String × String)) :
    relabel new old (cols ++ rest) = cols ++ relabel new old rest := by
  induction cols with
  | nil => rfl
  | cons col cols ih =>
      obtain ⟨name, expr⟩ := col
      obtain ⟨hname, hcols⟩ := not_or.mp (mt List.mem_cons.mpr h)
      simp only [List.cons_append, relabel, if_neg (Ne.symm hname), ih hcols]

section

variable {columns base : List String} {layers : List Layer} {wanted : List String}

/-- What is shown has the wanted names and those that derived columns have from further out. -/
theorem map_fst_shown_perm (h : Scoped columns base layers) (hwanted : Selects base layers wanted)
    (derived : List (String × String)) :
    ((shown layers wanted derived).map Prod.fst).Perm (wanted ++ derived.map Prod.fst) := by
  induction layers generalizing wanted derived with
  | nil => simp [shown, Function.comp_def]
  | cons layer below ih =>
      cases layer with
      | rename new old =>
          by_cases hnew : new ∈ wanted
          · have hbelow := ih h.tail (hwanted.below_rename h)
              (derived.map fun (asName, source) => (asName, renamed new old source))
            have hold : (wanted.map (renamed new old)).Perm (old :: wanted.erase new) := by
              have hmap := (List.perm_cons_erase hnew).map (renamed new old)
              rwa [List.map_cons, renamed_self,
                map_renamed_of_notMem hwanted.nodup.not_mem_erase] at hmap
            rw [List.map_map] at hbelow
            rw [shown, if_pos hnew]
            refine (map_fst_relabel_perm (hbelow.trans (hold.append_right _))).trans ?_
            exact (List.perm_cons_erase hnew).symm.append_right _
          · rw [shown, if_neg hnew]
            exact ih h.tail (hwanted.below_unwanted_rename h hnew) derived
      | extraColumn asName source =>
          by_cases hname : asName ∈ wanted
          · have hbelow := ih h.tail hwanted.below_extraColumn (derived ++ [(asName, source)])
            rw [shown, if_pos hname]
            refine hbelow.trans ?_
            rw [List.map_append, ← List.append_assoc]
            refine List.perm_append_comm.trans ?_
            exact (perm_cons_filter_ne hwanted.nodup hname).symm.append_right _
          · rw [shown, if_neg hname]
            exact ih h.tail (hwanted.below_unwanted_extraColumn hname) derived
      | projection entries => exact ih h.tail (hwanted.below_projection h) derived
      | condition predicate => exact ih h.tail hwanted.below_condition derived

/-- A rename takes the name of one column, and leaves what the columns stand for. -/
theorem relabel_names {new old : String} {below : List Layer} (hbase : base.Nodup)
    (h : Scoped columns base (rename new old :: below)) :
    relabel new old ((names base below).map fun name => (name, resolve below name)) =
      (names base (rename new old :: below)).map fun name =>
        (name, resolve (rename new old :: below) name) := by
  have hnames : (((names base below).map fun name => (name, resolve below name)).map
      Prod.fst).Nodup := by
    simpa [Function.comp_def] using h.tail.nodup_names hbase
  rw [relabel_eq_map (List.nodup_iff_count_le_one.mp hnames old), names, List.map_map, List.map_map]
  apply List.map_congr_left
  intro name hname
  have hback := renamed_renamed (ne_of_mem_of_not_mem hname h.fits.2) old
  exact Prod.ext rfl (congrArg (resolve below) hback.symm)

/-- Without derived columns, every wanted column is shown as what it stands for. -/
theorem shown_of_underived (h : Scoped columns base layers) (hwanted : Selects base layers wanted)
    (hkind : ∀ layer ∈ layers, layer.kind ≠ .extraColumn) :
    shown layers wanted [] = wanted.map fun name => (name, resolve layers name) := by
  induction layers generalizing wanted with
  | nil => simp [shown, resolve]
  | cons layer below ih =>
      have hbelow : ∀ layer ∈ below, layer.kind ≠ .extraColumn := by
        intro layer hlayer
        exact hkind layer (List.mem_cons_of_mem _ hlayer)
      cases layer with
      | rename new old =>
          by_cases hnew : new ∈ wanted
          · have hnames : (((wanted.map (renamed new old)).map fun name =>
                (name, resolve below name)).map Prod.fst).Nodup := by
              rw [List.map_map]
              simpa [Function.comp_def] using (hwanted.below_rename h).nodup
            rw [shown, if_pos hnew, List.map_nil, ih h.tail (hwanted.below_rename h) hbelow,
              relabel_eq_map (List.nodup_iff_count_le_one.mp hnames old), List.map_map,
              List.map_map]
            apply List.map_congr_left
            intro name hname
            exact Prod.ext (renamed_renamed (hwanted.ne_old h hname) new) rfl
          · rw [shown, if_neg hnew, ih h.tail (hwanted.below_unwanted_rename h hnew) hbelow]
            apply List.map_congr_left
            intro name hname
            rw [resolve, renamed_of_ne (ne_of_mem_of_not_mem hname hnew)]
      | extraColumn => exact absurd rfl (hkind _ List.mem_cons_self)
      | projection entries => exact ih h.tail (hwanted.below_projection h) hbelow
      | condition predicate => exact ih h.tail hwanted.below_condition hbelow

end

end Layer

namespace Clauses

/-- The columns after renames, of which the innermost comes first. -/
def relabelAll (renames cols : List (String × String)) : List (String × String) :=
  renames.foldr (fun (new, old) cols => Layer.relabel new old cols) cols

theorem relabelAll_concat (renames cols : List (String × String)) (new old : String) :
    relabelAll (renames ++ [(new, old)]) cols =
      relabelAll renames (Layer.relabel new old cols) := by
  rw [relabelAll, List.foldr_append]
  rfl

/-- The columns of clauses with a projection, with their names. -/
def columns (c : Clauses) (entries : List String) : List (String × String) :=
  relabelAll c.renames (entries.map (fun entry => (entry, entry)) ++ c.derived)

variable {texts base : List String} {layers : List Layer} {wanted : List String} {c c' : Clauses}

/-- Taking in layers goes from the outermost to the innermost. -/
theorem exists_of_foldlM_cons {layer : Layer} {below : List Layer}
    (h : (layer :: below).foldlM add c = .ok c') :
    ∃ c₁, c.add layer = .ok c₁ ∧ below.foldlM add c₁ = .ok c' := by
  rw [List.foldlM_cons] at h
  cases hstep : c.add layer with
  | error cause =>
      rw [hstep] at h
      cases h
  | ok c₁ =>
      rw [hstep] at h
      exact ⟨c₁, rfl, h⟩

/-- Taking in one more layer below a projection does not change what the clauses come to show. -/
theorem shown_of_add {layer : Layer} {below : List Layer}
    (h : Layer.Scoped texts base (layer :: below))
    (hwanted : Layer.Selects base (layer :: below) wanted)
    (hprojection : c.projection = some wanted) (hadd : c.add layer = .ok c') :
    ∃ wanted', c'.projection = some wanted' ∧ Layer.Selects base below wanted' ∧
      relabelAll c'.renames (Layer.shown below wanted' c'.derived) =
        relabelAll c.renames (Layer.shown (layer :: below) wanted c.derived) := by
  have hplain : ∀ entry ∈ wanted, Glob.isWildcard entry = false := by
    intro entry hentry
    exact h.plain_names (hwanted.subset entry hentry)
  cases layer with
  | rename new old =>
      obtain rfl : c.addRename new old = c' := Except.ok.inj hadd
      simp only [addRename, hprojection, Columns.foldRename?_of_plain hplain hwanted.nodup]
      by_cases hnew : new ∈ wanted
      · rw [if_pos hnew]
        refine ⟨_, rfl, hwanted.below_rename h, ?_⟩
        rw [relabelAll_concat, Layer.shown, if_pos hnew]
        rfl
      · rw [if_neg hnew]
        refine ⟨wanted, rfl, hwanted.below_unwanted_rename h hnew, ?_⟩
        rw [Layer.shown, if_neg hnew]
  | extraColumn asName source =>
      change c.addDerived asName source = .ok c' at hadd
      rw [addDerived, hprojection] at hadd
      split at hadd
      · cases hadd
      · dsimp only at hadd
        rw [Columns.selectDerived_of_plain hplain] at hadd
        by_cases hname : asName ∈ wanted
        · rw [if_pos (decide_eq_true hname)] at hadd
          cases hadd
          refine ⟨_, rfl, hwanted.below_extraColumn, ?_⟩
          rw [Layer.shown, if_pos hname]
          rfl
        · rw [if_neg (by simpa using hname), Columns.withoutDerived_of_notMem hname] at hadd
          cases hadd
          refine ⟨wanted, rfl, hwanted.below_unwanted_extraColumn hname, ?_⟩
          rw [Layer.shown, if_neg hname]
  | projection entries =>
      obtain rfl : c.addProjection entries = c' := Except.ok.inj hadd
      have hentries : ∀ entry ∈ entries, Glob.isWildcard entry = false := by
        intro entry hentry
        exact h.plain_names hentry
      refine ⟨wanted, ?_, hwanted.below_projection h, rfl⟩
      rw [addProjection, hprojection, Option.elim_some,
        Columns.intersect_of_plain h.fits.1 hwanted.nodup hentries hwanted.subset]
  | condition predicate =>
      obtain rfl : c.addCondition predicate = c' := Except.ok.inj hadd
      exact ⟨wanted, hprojection, hwanted.below_condition, rfl⟩

/-- What the layers below a projection come to, in terms of what the clauses show. -/
theorem columns_of_add (h : Layer.Scoped texts base layers)
    (hwanted : Layer.Selects base layers wanted) (hprojection : c.projection = some wanted)
    (hadd : layers.foldlM add c = .ok c') :
    ∃ entries, c'.projection = some entries ∧
      c'.columns entries = relabelAll c.renames (Layer.shown layers wanted c.derived) := by
  induction layers generalizing wanted c with
  | nil =>
      obtain rfl : c = c' := Except.ok.inj hadd
      exact ⟨wanted, hprojection, rfl⟩
  | cons layer below ih =>
      obtain ⟨c₁, hstep, hrest⟩ := exists_of_foldlM_cons hadd
      obtain ⟨wanted', hprojection', hwanted', hshown⟩ := shown_of_add h hwanted hprojection hstep
      obtain ⟨entries, hentries, hcolumns⟩ := ih h.tail hwanted' hprojection' hrest
      exact ⟨entries, hentries, hcolumns.trans hshown⟩

theorem condition_addDerived {asName source : String} (h : c.addDerived asName source = .ok c') :
    c.condition.any (asName ∈ ·.leaves) = false ∧ c'.condition = c.condition := by
  rw [addDerived] at h
  split at h
  · cases h
  · rename_i hread
    refine ⟨by simpa using hread, ?_⟩
    split at h
    · cases h
      rfl
    · split at h <;>
      · cases h
        rfl

/-- The predicates of the conditions so far, as they read below one more layer. -/
theorem exists_conjunction_of_add {ps : List Formula} {layer : Layer} {below : List Layer}
    (h : Layer.Scoped texts base (layer :: below))
    (hcondition : c.condition = Formula.conjunction ps) (hadd : c.add layer = .ok c') :
    ∃ ps', c'.condition = Formula.conjunction ps' ∧
      ps'.map (·.map (Layer.resolve below)) ++ Layer.filters base below =
        ps.map (·.map (Layer.resolve (layer :: below))) ++ Layer.filters base (layer :: below) := by
  cases layer with
  | rename new old =>
      obtain rfl : c.addRename new old = c' := Except.ok.inj hadd
      refine ⟨ps.map (·.map (Layer.renamed new old)), ?_, ?_⟩
      · rw [Formula.conjunction_map, ← hcondition, addRename]
        split
        · rfl
        · split <;> rfl
      · rw [List.map_map]
        simp only [Function.comp_def, Formula.map_map]
        rfl
  | extraColumn asName source =>
      obtain ⟨hread, hkept⟩ := condition_addDerived hadd
      refine ⟨ps, hkept.trans hcondition, congrArg (· ++ Layer.filters base below) ?_⟩
      rw [hcondition, Formula.mem_leaves_conjunction] at hread
      apply List.map_congr_left
      intro p hp
      apply Formula.map_congr
      intro leaf hleaf
      have hne : leaf ≠ asName := by
        rintro rfl
        exact absurd (List.any_eq_false.mp hread p hp) (by simpa using hleaf)
      rw [Layer.resolve, Layer.renamed_of_ne hne]
  | projection entries =>
      obtain rfl : c.addProjection entries = c' := Except.ok.inj hadd
      exact ⟨ps, hcondition, rfl⟩
  | condition predicate =>
      obtain rfl : c.addCondition predicate = c' := Except.ok.inj hadd
      have hresolve : predicate.map (Layer.resolve below) = predicate.map fun leaf =>
          if leaf ∈ Layer.names base below then Layer.resolve below leaf else leaf := by
        apply Formula.map_congr
        intro leaf hleaf
        split
        · rfl
        · exact h.tail.resolve_literal ((h.fits leaf hleaf).resolve_left ‹_›)
      refine ⟨ps ++ [predicate], ?_, ?_⟩
      · rw [Formula.conjunction_concat, ← hcondition]
        rfl
      · rw [List.map_append, List.append_assoc, List.map_singleton, hresolve]
        rfl

/-- What layers come to has the predicates of all their conditions, with the columns resolved. -/
theorem condition_of_add {ps : List Formula} (h : Layer.Scoped texts base layers)
    (hcondition : c.condition = Formula.conjunction ps) (hadd : layers.foldlM add c = .ok c') :
    c'.condition = Formula.conjunction
      (ps.map (·.map (Layer.resolve layers)) ++ Layer.filters base layers) := by
  induction layers generalizing ps c with
  | nil =>
      obtain rfl : c = c' := Except.ok.inj hadd
      have hresolve : Layer.resolve [] = id := rfl
      simpa [Layer.filters, hresolve, Formula.map_id] using hcondition
  | cons layer below ih =>
      obtain ⟨c₁, hstep, hrest⟩ := exists_of_foldlM_cons hadd
      obtain ⟨ps', hcondition', hconditions⟩ := exists_conjunction_of_add h hcondition hstep
      rw [ih h.tail hcondition' hrest, hconditions]

/-- Without derived columns there is always a next clause. -/
theorem exists_add (hkind : ∀ layer ∈ layers, layer.kind ≠ .extraColumn) (c : Clauses) :
    ∃ c', layers.foldlM add c = .ok c' := by
  induction layers generalizing c with
  | nil => exact ⟨c, rfl⟩
  | cons layer below ih =>
      have hbelow := ih fun layer hlayer => hkind layer (List.mem_cons_of_mem _ hlayer)
      cases layer with
      | rename new old => exact hbelow (c.addRename new old)
      | extraColumn => exact absurd rfl (hkind _ List.mem_cons_self)
      | projection entries => exact hbelow (c.addProjection entries)
      | condition predicate => exact hbelow (c.addCondition predicate)

/-- Layers with a projection and without derived columns show all columns as what they stand for. -/
theorem columns_of_underived (hbase : base.Nodup) (h : Layer.Scoped texts base layers)
    (hkind : ∀ layer ∈ layers, layer.kind ≠ .extraColumn)
    (hprojected : ∃ layer ∈ layers, layer.kind = .projection) (hc : c.projection = none)
    (hderived : c.derived = []) (hadd : layers.foldlM add c = .ok c') :
    ∃ entries, c'.projection = some entries ∧ c'.columns entries = relabelAll c.renames
      ((Layer.names base layers).map fun name => (name, Layer.resolve layers name)) := by
  induction layers generalizing c with
  | nil => simp at hprojected
  | cons layer below ih =>
      have hkind' : ∀ layer ∈ below, layer.kind ≠ .extraColumn := by
        intro layer hlayer
        exact hkind layer (List.mem_cons_of_mem _ hlayer)
      cases layer with
      | rename new old =>
          change below.foldlM add (c.addRename new old) = .ok c' at hadd
          have hadded : c.addRename new old = { c with
              renames := c.renames ++ [(new, old)]
              condition := c.condition.map (·.replace new old) } := by
            simp only [addRename, hc, hderived, List.map_nil]
          have hprojected' : ∃ layer ∈ below, layer.kind = .projection := by
            simpa [Layer.kind] using hprojected
          obtain ⟨entries, hentries, hcolumns⟩ := ih (c := c.addRename new old) h.tail hkind'
            hprojected' (by rw [hadded]; exact hc) (by rw [hadded]; exact hderived) hadd
          refine ⟨entries, hentries, hcolumns.trans ?_⟩
          rw [hadded, relabelAll_concat, Layer.relabel_names hbase h]
      | extraColumn => exact absurd rfl (hkind _ List.mem_cons_self)
      | projection entries =>
          have hselects : Layer.Selects base below entries := ⟨h.fits.1, h.fits.2⟩
          have hprojection : (c.addProjection entries).projection = some entries := by
            rw [addProjection, hc]
            rfl
          obtain ⟨entries', hentries, hcolumns⟩ :=
            columns_of_add (c := c.addProjection entries) h.tail hselects hprojection hadd
          refine ⟨entries', hentries, hcolumns.trans ?_⟩
          rw [show (c.addProjection entries).derived = [] from hderived,
            Layer.shown_of_underived h.tail hselects hkind']
          rfl
      | condition predicate =>
          have hprojected' : ∃ layer ∈ below, layer.kind = .projection := by
            simpa [Layer.kind] using hprojected
          exact ih (c := c.addCondition predicate) h.tail hkind' hprojected' hc hderived hadd

end Clauses

/-! ### Output columns -/

/-- A column with the name that it goes by. -/
def OutputColumn.named (c : OutputColumn) : String × String :=
  (c.visibleName, c.expr)

theorem OutputColumn.map_renameFirst (new old : String) (cols : List OutputColumn) :
    (renameFirst new old cols).map named = Layer.relabel new old (cols.map named) := by
  induction cols with
  | nil => rfl
  | cons c rest ih =>
      rw [renameFirst, List.map_cons]
      change _ = if c.visibleName = old then (new, c.expr) :: rest.map named
        else c.named :: Layer.relabel new old (rest.map named)
      split
      · rfl
      · rw [List.map_cons, ih]

/-- Among columns of different names there is one of each name. -/
theorem OutputColumn.exists_only {cols : List OutputColumn} {name : String}
    (hnodup : (cols.map visibleName).Nodup) (hname : name ∈ cols.map visibleName) :
    ∃ column, cols.filter (·.visibleName = name) = [column] ∧
      ∀ expr, column.expr = expr ↔ (name, expr) ∈ cols.map named := by
  have hcount := List.count_eq_one_of_mem hnodup hname
  rw [List.count, List.countP_map, List.countP_eq_length_filter] at hcount
  obtain ⟨column, hcolumn⟩ := List.length_eq_one_iff.mp hcount
  refine ⟨column, hcolumn, ?_⟩
  have hmem : ∀ found, found ∈ cols ∧ found.visibleName = name ↔ found = column := by
    intro found
    rw [← List.mem_singleton (b := column), ← hcolumn]
    simp [List.mem_filter]
  intro expr
  rw [List.mem_map]
  constructor
  · rintro rfl
    obtain ⟨hfound, hvisible⟩ := (hmem column).mpr rfl
    exact ⟨column, hfound, Prod.ext hvisible rfl⟩
  · rintro ⟨found, hfound, heq⟩
    obtain ⟨hvisible, hexpr⟩ := Prod.mk.inj heq
    rw [← (hmem found).mp ⟨hfound, hvisible⟩, hexpr]

theorem Select.map_outputColumns {s : Select} {entries : List String}
    (h : s.projection = some entries) : s.outputColumns.map OutputColumn.named =
      Clauses.relabelAll s.renames (entries.map (fun entry => (entry, entry)) ++ s.derived) := by
  have hsource : (sourceColumns entries s.derived).map OutputColumn.named =
      entries.map (fun entry => (entry, entry)) ++ s.derived := by
    rw [sourceColumns, List.map_append, List.map_map, List.map_map]
    refine congrArg (_ ++ ·) ?_
    exact List.map_id s.derived
  rw [outputColumns, h]
  dsimp only
  generalize s.renames = renames
  induction renames with
  | nil => exact hsource
  | cons pair rest ih =>
      rw [List.foldr_cons, OutputColumn.map_renameFirst, ih]
      rfl

end FlatSelect
