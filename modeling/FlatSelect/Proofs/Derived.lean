import FlatSelect.Proofs.Shown

/-!
# Derived columns in a flat select

A flat select need not show a derived column as what its name stands for. The source follows the
renames that stay (`Layer.followed`), but a rename that is lost, since no projection has a use for
its new name, may be one that the source was to follow, and so may a derived column. And if two
derived columns have a name that a rename between them takes from the inner one, it is the outer one
that gets the new name.

As long as names are not mixed up in this way (`Layer.Unmixed`), each column is shown as
`Layer.shownAs` says, which is to be compared with `Layer.resolve`
(`Layer.shown_perm_of_unmixed`).
-/

namespace FlatSelect

namespace Layer

/-- What the source of a derived column comes to in a flat select. -/
def followed : List Layer → List String → String → String
  | [], _, source => source
  | rename new old :: below, wanted, source =>
    if new ∈ wanted then followed below (wanted.map (renamed new old)) (renamed new old source)
    else followed below wanted source
  | extraColumn asName _ :: below, wanted, source =>
    followed below (wanted.filter (· ≠ asName)) source
  | projection _ :: below, wanted, source => followed below wanted source
  | condition _ :: below, wanted, source => followed below wanted source

/-- What a wanted column is shown as. -/
def shownAs : List Layer → List String → String → String
  | [], _, name => name
  | rename new old :: below, wanted, name =>
    if new ∈ wanted then shownAs below (wanted.map (renamed new old)) (renamed new old name)
    else shownAs below wanted name
  | extraColumn asName source :: below, wanted, name =>
    if name = asName then followed below (wanted.filter (· ≠ asName)) source
    else shownAs below (wanted.filter (· ≠ asName)) name
  | projection _ :: below, wanted, name => shownAs below wanted name
  | condition _ :: below, wanted, name => shownAs below wanted name

/-- No rename that stays takes the name of a derived column, if a derived column from further out
has this name too. -/
def Unmixed : List Layer → List String → List String → Prop
  | [], _, _ => True
  | rename new old :: below, wanted, aliases =>
    if new ∈ wanted then
      (old ∈ aliases → derives below old = false) ∧
        Unmixed below (wanted.map (renamed new old)) aliases
    else Unmixed below wanted aliases
  | extraColumn asName _ :: below, wanted, aliases =>
    if asName ∈ wanted then Unmixed below (wanted.filter (· ≠ asName)) (aliases ++ [asName])
    else Unmixed below wanted aliases
  | projection _ :: below, wanted, aliases => Unmixed below wanted aliases
  | condition _ :: below, wanted, aliases => Unmixed below wanted aliases

instance decidableUnmixed : (layers : List Layer) → (wanted aliases : List String) →
    Decidable (Unmixed layers wanted aliases)
  | [], _, _ => inferInstanceAs (Decidable True)
  | rename new old :: below, wanted, aliases =>
    have := decidableUnmixed below (wanted.map (renamed new old)) aliases
    have := decidableUnmixed below wanted aliases
    inferInstanceAs (Decidable (if new ∈ wanted then _ else _))
  | extraColumn asName _ :: below, wanted, aliases =>
    have := decidableUnmixed below (wanted.filter (· ≠ asName)) (aliases ++ [asName])
    have := decidableUnmixed below wanted aliases
    inferInstanceAs (Decidable (if asName ∈ wanted then _ else _))
  | projection _ :: below, wanted, aliases => decidableUnmixed below wanted aliases
  | condition _ :: below, wanted, aliases => decidableUnmixed below wanted aliases

/-- The wanted columns that are derived, or those that are not, as they are shown. -/
def shownBy (layers : List Layer) (wanted : List String) (derived : Bool) :
    List (String × String) :=
  (wanted.filter (derives layers · = derived)).map fun name => (name, shownAs layers wanted name)

variable {columns base : List String} {below layers : List Layer} {wanted : List String}
  {new old asName source : String}

theorem map_fst_shownBy (layers : List Layer) (wanted : List String) (derived : Bool) :
    (shownBy layers wanted derived).map Prod.fst = wanted.filter (derives layers · = derived) := by
  rw [shownBy, List.map_map]
  exact List.map_id _

theorem shownBy_perm (layers : List Layer) (wanted : List String) :
    (shownBy layers wanted false ++ shownBy layers wanted true).Perm
      (wanted.map fun name => (name, shownAs layers wanted name)) := by
  rw [shownBy, shownBy, ← List.map_append]
  apply List.Perm.map
  have hsplit := List.filter_append_perm (fun name => derives layers name = false) wanted
  simpa using hsplit

theorem map_fst_shownBy_perm (layers : List Layer) (wanted : List String) :
    ((shownBy layers wanted false ++ shownBy layers wanted true).map Prod.fst).Perm wanted := by
  have hmap := (shownBy_perm layers wanted).map Prod.fst
  rw [List.map_map] at hmap
  exact hmap.trans (List.Perm.of_eq (List.map_id wanted))

/-- A rename that stays gives a column its new name. -/
theorem shownBy_rename (hnew : new ∈ wanted) (hold : old ∉ wanted) (derived : Bool) :
    shownBy (rename new old :: below) wanted derived =
      (shownBy below (wanted.map (renamed new old)) derived).map fun col =>
        (renamed old new col.1, col.2) := by
  rw [shownBy, shownBy, List.map_map, List.filter_map, List.map_map]
  apply List.map_congr_left
  intro name hname
  have hne : name ≠ old := ne_of_mem_of_not_mem (List.mem_of_mem_filter hname) hold
  rw [shownAs, if_pos hnew]
  exact Prod.ext (renamed_renamed hne new).symm rfl

theorem shownBy_unwanted_rename (hnew : new ∉ wanted) (derived : Bool) :
    shownBy (rename new old :: below) wanted derived = shownBy below wanted derived := by
  have hderives : ∀ name ∈ wanted, derives (rename new old :: below) name = derives below name := by
    intro name hname
    rw [derives, renamed_of_ne (ne_of_mem_of_not_mem hname hnew)]
  have hfilter : wanted.filter (derives (rename new old :: below) · = derived) =
      wanted.filter (derives below · = derived) := by
    apply List.filter_congr
    intro name hname
    rw [hderives name hname]
  rw [shownBy, hfilter]
  apply List.map_congr_left
  intro name _
  rw [shownAs, if_neg hnew]

/-- A derived column leaves the others as they are. -/
theorem shownBy_extraColumn (asName source : String) (below : List Layer) (wanted : List String) :
    shownBy (extraColumn asName source :: below) wanted false =
      shownBy below (wanted.filter (· ≠ asName)) false := by
  have hfilter : wanted.filter (derives (extraColumn asName source :: below) · = false) =
      (wanted.filter (· ≠ asName)).filter (derives below · = false) := by
    rw [List.filter_filter]
    apply List.filter_congr
    intro name _
    simp [derives, Bool.and_comm]
  rw [shownBy, shownBy, hfilter]
  apply List.map_congr_left
  intro name hname
  have hne := (List.mem_filter.mp (List.mem_of_mem_filter hname)).2
  rw [shownAs, if_neg (of_decide_eq_true hne)]

theorem shownBy_extraColumn_perm (hnodup : wanted.Nodup) (hname : asName ∈ wanted) :
    (shownBy (extraColumn asName source :: below) wanted true).Perm
      ((asName, followed below (wanted.filter (· ≠ asName)) source) ::
        shownBy below (wanted.filter (· ≠ asName)) true) := by
  have hfilter : (wanted.filter (· ≠ asName)).filter
        (derives (extraColumn asName source :: below) · = true) =
      (wanted.filter (· ≠ asName)).filter (derives below · = true) := by
    apply List.filter_congr
    intro name hmem
    simp [derives, of_decide_eq_true (List.mem_filter.mp hmem).2]
  have hself : derives (extraColumn asName source :: below) asName = true := by simp [derives]
  have hcolumns := ((perm_cons_filter_ne hnodup hname).filter
    (derives (extraColumn asName source :: below) · = true)).map fun name =>
      (name, shownAs (extraColumn asName source :: below) wanted name)
  rw [List.filter_cons, if_pos (decide_eq_true hself), hfilter, List.map_cons, shownAs,
    if_pos rfl] at hcolumns
  refine hcolumns.trans (List.Perm.of_eq (congrArg _ ?_))
  apply List.map_congr_left
  intro name hmem
  have hne := (List.mem_filter.mp (List.mem_of_mem_filter hmem)).2
  rw [shownAs, if_neg (of_decide_eq_true hne)]

theorem shownBy_unwanted_extraColumn (hname : asName ∉ wanted) (derived : Bool) :
    shownBy (extraColumn asName source :: below) wanted derived = shownBy below wanted derived := by
  have hne : ∀ name ∈ wanted, name ≠ asName := by
    intro _ hmem
    exact ne_of_mem_of_not_mem hmem hname
  have hfilter : wanted.filter (derives (extraColumn asName source :: below) · = derived) =
      wanted.filter (derives below · = derived) := by
    apply List.filter_congr
    intro name hmem
    simp [derives, hne name hmem]
  rw [shownBy, shownBy, hfilter]
  apply List.map_congr_left
  intro name hmem
  rw [shownAs, if_neg (hne name (List.mem_of_mem_filter hmem)), filter_ne_of_notMem hname]

/-- A rename finds its column among the others or among the derived ones, unless a derived column
from further out stands before it. -/
theorem exists_relabel_append (new old : String) {plain derived outer rest : List (String × String)}
    (hnodup : ((plain ++ derived).map Prod.fst).Nodup)
    (hold : old ∈ (plain ++ derived).map Prod.fst) :
    ∃ rest', relabel new old (plain ++ rest) =
        plain.map (fun col => (renamed old new col.1, col.2)) ++ rest' ∧
      ((old ∈ outer.map Prod.fst → old ∉ derived.map Prod.fst) → rest.Perm (derived ++ outer) →
        rest'.Perm (derived.map (fun col => (renamed old new col.1, col.2)) ++ outer)) := by
  rw [List.map_append] at hnodup hold
  by_cases hplain : old ∈ plain.map Prod.fst
  · have hderived : old ∉ derived.map Prod.fst := by
      intro hmem
      exact hnodup.disjoint hplain hmem
    have hcount := List.nodup_iff_count_le_one.mp hnodup.of_append_left old
    -- No derived column is looked at.
    refine ⟨rest, ?_, ?_⟩
    · rw [relabel_append_of_mem hplain, relabel_eq_map hcount]
    · intro _ hrest
      rwa [map_renamed_fst_of_notMem hderived]
  · have hderived := (List.mem_append.mp hold).resolve_left hplain
    refine ⟨relabel new old rest, ?_, ?_⟩
    · rw [relabel_append_of_notMem hplain, map_renamed_fst_of_notMem hplain]
    · intro hapart hrest
      have houter : old ∉ outer.map Prod.fst := by
        intro hmem
        exact hapart hmem hderived
      have hcount : (rest.map Prod.fst).count old ≤ 1 := by
        rw [(hrest.map Prod.fst).count_eq, List.map_append, List.count_append,
          List.count_eq_zero.mpr houter]
        exact List.nodup_iff_count_le_one.mp hnodup.of_append_right old
      have hmap := hrest.map fun col => (renamed old new col.1, col.2)
      rwa [List.map_append, map_renamed_fst_of_notMem houter, ← relabel_eq_map hcount] at hmap

variable {derived : List (String × String)}

/-- The columns that are not derived come first. After them are the derived columns, and those from
further out are among them. -/
def Parts (layers : List Layer) (wanted : List String) (derived : List (String × String)) : Prop :=
  ∃ rest, shown layers wanted derived = shownBy layers wanted false ++ rest ∧
    (Unmixed layers wanted (derived.map Prod.fst) → rest.Perm (shownBy layers wanted true ++
      derived.map fun col => (col.1, followed layers wanted col.2)))

theorem parts_rename (h : Scoped columns base (rename new old :: below))
    (hwanted : Selects base (rename new old :: below) wanted) (hnew : new ∈ wanted)
    (hbelow : Parts below (wanted.map (renamed new old))
      (derived.map fun col => (col.1, renamed new old col.2))) :
    Parts (rename new old :: below) wanted derived := by
  have hselects := hwanted.below_rename h
  have hold : old ∉ wanted := by
    intro hmem
    exact hwanted.ne_old h hmem rfl
  have hold' : old ∈ wanted.map (renamed new old) :=
    List.mem_map.mpr ⟨new, hnew, renamed_self new old⟩
  have hnames := map_fst_shownBy_perm below (wanted.map (renamed new old))
  have haliases : (derived.map fun col => (col.1, renamed new old col.2)).map Prod.fst =
      derived.map Prod.fst := by simp
  obtain ⟨rest, hshown, hrest⟩ := hbelow
  rw [haliases, List.map_map] at hrest
  obtain ⟨rest', hrelabel, hrest'⟩ := exists_relabel_append new old
    (hnames.nodup_iff.mpr hselects.nodup) (hnames.mem_iff.mpr hold')
  refine ⟨rest', ?_, ?_⟩
  · rw [shown, if_pos hnew, hshown, hrelabel, shownBy_rename hnew hold]
  · intro hunmixed
    rw [Unmixed, if_pos hnew] at hunmixed
    obtain ⟨hmixed, hunmixed⟩ := hunmixed
    rw [shownBy_rename hnew hold]
    simp only [followed, if_pos hnew]
    refine hrest' ?_ (hrest hunmixed)
    rw [List.map_map, map_fst_shownBy]
    intro houter hderived
    have hderives := of_decide_eq_true (List.mem_filter.mp hderived).2
    rw [hmixed houter] at hderives
    cases hderives

theorem parts_unwanted_rename (hnew : new ∉ wanted) (hbelow : Parts below wanted derived) :
    Parts (rename new old :: below) wanted derived := by
  obtain ⟨rest, hshown, hrest⟩ := hbelow
  refine ⟨rest, ?_, ?_⟩
  · rw [shown, if_neg hnew, shownBy_unwanted_rename hnew, hshown]
  · intro hunmixed
    rw [Unmixed, if_neg hnew] at hunmixed
    simp only [followed, if_neg hnew]
    rw [shownBy_unwanted_rename hnew]
    exact hrest hunmixed

theorem parts_extraColumn (hnodup : wanted.Nodup) (hname : asName ∈ wanted)
    (hbelow : Parts below (wanted.filter (· ≠ asName)) (derived ++ [(asName, source)])) :
    Parts (extraColumn asName source :: below) wanted derived := by
  have haliases : (derived ++ [(asName, source)]).map Prod.fst =
      derived.map Prod.fst ++ [asName] := by simp
  obtain ⟨rest, hshown, hrest⟩ := hbelow
  refine ⟨rest, ?_, ?_⟩
  · rw [shown, if_pos hname, hshown, shownBy_extraColumn]
  · intro hunmixed
    rw [Unmixed, if_pos hname, ← haliases] at hunmixed
    refine (hrest hunmixed).trans ?_
    rw [List.map_append, ← List.append_assoc]
    refine List.perm_append_comm.trans ?_
    exact (shownBy_extraColumn_perm hnodup hname).symm.append_right _

theorem parts_unwanted_extraColumn (hname : asName ∉ wanted) (hbelow : Parts below wanted derived) :
    Parts (extraColumn asName source :: below) wanted derived := by
  obtain ⟨rest, hshown, hrest⟩ := hbelow
  refine ⟨rest, ?_, ?_⟩
  · rw [shown, if_neg hname, shownBy_unwanted_extraColumn hname, hshown]
  · intro hunmixed
    rw [Unmixed, if_neg hname] at hunmixed
    simp only [followed, filter_ne_of_notMem hname]
    rw [shownBy_unwanted_extraColumn hname]
    exact hrest hunmixed

theorem parts_shown (h : Scoped columns base layers) (hwanted : Selects base layers wanted)
    (derived : List (String × String)) : Parts layers wanted derived := by
  induction layers generalizing wanted derived with
  | nil =>
      refine ⟨derived, ?_, ?_⟩
      · simp [shown, shownBy, derives, shownAs]
      · intro _
        simp [shownBy, derives, followed]
  | cons layer below ih =>
      cases layer with
      | rename new old =>
          by_cases hnew : new ∈ wanted
          · exact parts_rename h hwanted hnew (ih h.tail (hwanted.below_rename h) _)
          · exact parts_unwanted_rename hnew
              (ih h.tail (hwanted.below_unwanted_rename h hnew) derived)
      | extraColumn asName source =>
          by_cases hname : asName ∈ wanted
          · exact parts_extraColumn hwanted.nodup hname (ih h.tail hwanted.below_extraColumn _)
          · exact parts_unwanted_extraColumn hname
              (ih h.tail (hwanted.below_unwanted_extraColumn hname) derived)
      | projection entries => exact ih h.tail (hwanted.below_projection h) derived
      | condition predicate => exact ih h.tail hwanted.below_condition derived

/-- Each wanted column is shown as `shownAs` has it, next to the derived columns from further
out. -/
theorem shown_perm_of_unmixed (h : Scoped columns base layers)
    (hwanted : Selects base layers wanted)
    (hunmixed : Unmixed layers wanted (derived.map Prod.fst)) :
    (shown layers wanted derived).Perm
      (wanted.map (fun name => (name, shownAs layers wanted name)) ++
        derived.map fun col => (col.1, followed layers wanted col.2)) := by
  obtain ⟨rest, hshown, hrest⟩ := parts_shown h hwanted derived
  have hall := (hrest hunmixed).append_left (shownBy layers wanted false)
  rw [← List.append_assoc] at hall
  rw [hshown]
  exact hall.trans ((shownBy_perm layers wanted).append_right _)

theorem shownAs_eq_resolve {name : String} (hname : name ∈ wanted)
    (hderives : derives layers name = false) :
    shownAs layers wanted name = resolve layers name := by
  induction layers generalizing wanted name with
  | nil => rfl
  | cons layer below ih =>
      cases layer with
      | rename new old =>
          by_cases hnew : new ∈ wanted
          · rw [shownAs, if_pos hnew]
            exact ih (List.mem_map_of_mem hname) hderives
          · have hne : name ≠ new := ne_of_mem_of_not_mem hname hnew
            rw [derives, renamed_of_ne hne] at hderives
            rw [shownAs, if_neg hnew, resolve, renamed_of_ne hne]
            exact ih hname hderives
      | extraColumn asName source =>
          obtain ⟨hne, hderives⟩ : name ≠ asName ∧ derives below name = false := by
            simpa [derives] using hderives
          rw [shownAs, if_neg hne, resolve, renamed_of_ne hne]
          exact ih (List.mem_filter.mpr ⟨hname, decide_eq_true hne⟩) hderives
      | projection | condition => exact ih hname hderives

/-- A column that is not derived is shown as what it stands for, also next to derived columns. -/
theorem mem_shown_of_underived {name : String} (h : Scoped columns base layers)
    (hwanted : Selects base layers wanted) (hname : name ∈ wanted)
    (hderives : derives layers name = false) :
    (name, resolve layers name) ∈ shown layers wanted derived := by
  obtain ⟨rest, hshown, _⟩ := parts_shown h hwanted derived
  rw [hshown, ← shownAs_eq_resolve hname hderives]
  apply List.mem_append_left
  apply List.mem_map_of_mem
  exact List.mem_filter.mpr ⟨hname, decide_eq_true hderives⟩

end Layer

end FlatSelect
