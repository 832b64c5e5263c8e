import FlatSelect.Proofs.Canonical
import FlatSelect.Proofs.Intersection

/-!
# Projections in both branches of a join

A projection that leaves its branch says of its columns which branch they are of, and lets all
columns of the other branch through by a wildcard. The second one to leave the join meets the first,
and of two such lists nothing is left but the columns: a column meets nothing in the other list but
the wildcard of its own branch, and the wildcards do not meet (`Columns.intersect_branches`).

So a join with a projection in either branch, and any condition upon it, is normalized by two lifts
to one projection of the columns of both (`Expr.normalize_joined_projections`).
-/

namespace FlatSelect

namespace Columns

/-- An alias that is no wildcard and has no dot. -/
structure PlainAlias (asName : String) : Prop where
  not_wildcard : Glob.isWildcard asName = false
  undotted : '.' ∉ asName.toList

variable {asName other c d : String} {left right : List String}

theorem toList_qualify (asName column : String) :
    (qualify asName column).toList = asName.toList ++ '.' :: column.toList := by
  simp [qualify]

theorem isWildcard_qualify (h : PlainAlias asName) :
    Glob.isWildcard (qualify asName c) = Glob.isWildcard c := by
  have hasName := h.not_wildcard
  rw [Glob.isWildcard] at hasName
  rw [Glob.isWildcard, toList_qualify, List.any_append, hasName]
  rfl

theorem PlainName.isWildcard_qualify (hc : PlainName c) (h : PlainAlias asName) :
    Glob.isWildcard (qualify asName c) = false := by
  rw [Columns.isWildcard_qualify h, hc.not_wildcard]

theorem PlainAlias.takeWhile (h : PlainAlias asName) (rest : List Char) :
    (asName.toList ++ '.' :: rest).takeWhile (· ≠ '.') = asName.toList := by
  have hdot : ∀ c ∈ asName.toList, c ≠ '.' := by
    rintro _ hc rfl
    exact h.undotted hc
  rw [List.takeWhile_append_of_pos (by simpa using hdot)]
  simp

/-- The alias can be read off a qualified column. -/
theorem eq_of_toList_qualify {rest : List Char} (h : PlainAlias asName) (hother : PlainAlias other)
    (heq : (qualify other d).toList = asName.toList ++ '.' :: rest) :
    asName = other ∧ d.toList = rest := by
  rw [toList_qualify] at heq
  have halias := congrArg (List.takeWhile (· ≠ '.')) heq
  rw [h.takeWhile, hother.takeWhile] at halias
  rw [halias] at heq
  exact ⟨(String.toList_injective halias).symm, by simpa using heq⟩

theorem qualify_ne (h : PlainAlias asName) (hother : PlainAlias other) (hne : asName ≠ other) :
    qualify asName c ≠ qualify other d := by
  intro heq
  exact hne (eq_of_toList_qualify h hother (by rw [← heq, toList_qualify])).1

theorem PlainAlias.literal (h : PlainAlias asName) :
    ∀ c ∈ asName.toList ++ ['.'], c ≠ '*' ∧ c ≠ '?' := by
  have hasName := h.not_wildcard
  simp only [Glob.isWildcard, List.any_eq_false, Bool.or_eq_true, decide_eq_true_eq, not_or]
    at hasName
  intro c hc
  rcases List.mem_append.mp hc with hc | hc
  · exact hasName c hc
  · obtain rfl := List.mem_singleton.mp hc
    decide

/-- The wildcard of a branch covers the columns of this branch, unless they have a line feed. -/
theorem covers_star (h : PlainAlias asName) (hother : PlainAlias other) :
    Glob.covers (qualify asName "*") (qualify other d) = true ↔
      asName = other ∧ '\n' ∉ d.toList := by
  have hpattern : (qualify asName "*").toList = (asName.toList ++ ['.']) ++ ['*'] := by
    simp [toList_qualify]
  rw [Glob.covers_iff, hpattern, Glob.matches_append h.literal]
  constructor
  · rintro ⟨rest, htext, hmatches⟩
    rw [List.append_assoc] at htext
    obtain ⟨heq, rfl⟩ := eq_of_toList_qualify h hother htext
    refine ⟨heq, fun hline => ?_⟩
    have htakes := Glob.matches_star.mp hmatches '\n' hline
    cases htakes
  · rintro ⟨rfl, hline⟩
    refine ⟨d.toList, by simp [toList_qualify], Glob.matches_star.mpr fun c hc => ?_⟩
    rw [Glob.takes, decide_eq_true_eq]
    rintro rfl
    exact hline hc

/-! ### Entries of the two lists -/

theorem unify?_stars (h : PlainAlias asName) (hother : PlainAlias other) (hne : asName ≠ other) :
    unify? (qualify asName "*") (qualify other "*") = none := by
  have hcovers : ∀ {asName other : String}, PlainAlias asName → PlainAlias other →
      asName ≠ other → Glob.covers (qualify asName "*") (qualify other "*") = false := by
    intro asName other h hother hne
    rw [← Bool.not_eq_true, covers_star h hother]
    exact fun hcovers => hne hcovers.1
  rw [unify?_of_wildcards (isWildcard_qualify h) (isWildcard_qualify hother),
    hcovers hother h hne.symm, hcovers h hother hne]
  rfl

theorem unify?_columns (h : PlainAlias asName) (hother : PlainAlias other) (hne : asName ≠ other)
    (hc : PlainName c) (hd : PlainName d) :
    unify? (qualify asName c) (qualify other d) = none := by
  rw [unify?_of_column (hc.isWildcard_qualify h), if_neg]
  rw [picks_of_not_wildcard (hd.isWildcard_qualify hother)]
  exact qualify_ne hother h hne.symm

/-- The wildcard of its branch selects a column. -/
theorem picks_star (h : PlainAlias asName) (hc : PlainName c) :
    Picks (qualify asName "*") (qualify asName c) :=
  .inr ⟨isWildcard_qualify h, (covers_star h h).mpr ⟨rfl, hc.one_line⟩⟩

theorem unify?_column_star (h : PlainAlias asName) (hc : PlainName c) :
    unify? (qualify asName c) (qualify asName "*") = some (qualify asName c) := by
  rw [unify?_of_column (hc.isWildcard_qualify h), if_pos (picks_star h hc)]

theorem unify?_star_column (h : PlainAlias asName) (hc : PlainName c) :
    unify? (qualify asName "*") (qualify asName c) = some (qualify asName c) := by
  rw [unify?_of_wildcard_column (isWildcard_qualify h) (hc.isWildcard_qualify h),
    if_pos (picks_star h hc)]

/-! ### The two lists -/

/-- A column meets the wildcard of its own branch, and none of the columns of the other. -/
theorem filterMap_unify?_column (h : PlainAlias asName) (hother : PlainAlias other)
    (hne : asName ≠ other) (hright : ∀ d ∈ right, PlainName d) (hc : PlainName c) :
    (right.map (qualify other) ++ [qualify asName "*"]).filterMap (unify? (qualify asName c)) =
      [qualify asName c] := by
  have hcolumns : (right.map (qualify other)).filterMap (unify? (qualify asName c)) = [] := by
    rw [List.filterMap_eq_nil_iff, List.forall_mem_map]
    exact fun d hd => unify?_columns h hother hne hc (hright d hd)
  rw [List.filterMap_append, hcolumns]
  simp [unify?_column_star h hc]

/-- A wildcard meets the columns of its branch, and not the wildcard of the other. -/
theorem filterMap_unify?_star (h : PlainAlias asName) (hother : PlainAlias other)
    (hne : asName ≠ other) (hright : ∀ d ∈ right, PlainName d) :
    (right.map (qualify other) ++ [qualify asName "*"]).filterMap (unify? (qualify other "*")) =
      right.map (qualify other) := by
  have hcolumns : (right.map (qualify other)).filterMap (unify? (qualify other "*")) =
      right.map (qualify other) := by
    rw [List.filterMap_map, ← List.filterMap_eq_map]
    exact List.filterMap_congr fun d hd => unify?_star_column hother (hright d hd)
  rw [List.filterMap_append, hcolumns]
  simp [unify?_stars hother h hne.symm]

/-- Of two lists that each let the other branch through the columns are left. -/
theorem intersect_branches (h : PlainAlias asName) (hother : PlainAlias other)
    (hne : asName ≠ other) (hleft : ∀ c ∈ left, PlainName c) (hright : ∀ d ∈ right, PlainName d) :
    intersect (right.map (qualify other) ++ [qualify asName "*"])
        (left.map (qualify asName) ++ [qualify other "*"]) =
      (left.map (qualify asName)).eraseDups ++ (right.map (qualify other)).eraseDups := by
  have hcolumns : (left.map (qualify asName)).flatMap (fun o =>
      (right.map (qualify other) ++ [qualify asName "*"]).filterMap (unify? o)) =
        left.map (qualify asName) := by
    rw [List.flatMap_map]
    exact (List.flatMap_congr fun c hc => filterMap_unify?_column h hother hne hright
      (hleft c hc)).trans List.map_eq_flatMap.symm
  have hdisjoint : (right.map (qualify other)).removeAll (left.map (qualify asName)) =
      right.map (qualify other) := by
    rw [List.removeAll, List.filter_eq_self, List.forall_mem_map]
    intro d _
    rw [Bool.not_eq_true', List.elem_eq_mem, decide_eq_false_iff_not, List.mem_map]
    rintro ⟨c, _, heq⟩
    exact qualify_ne h hother hne heq
  rw [intersect, List.flatMap_append, hcolumns, List.flatMap_singleton,
    filterMap_unify?_star h hother hne hright, List.eraseDups_append, hdisjoint]

end Columns

/-! ### Leaving the join -/

variable {predicate : Option Expr}

namespace JoinFrame

variable {wildcards : List String} (j : JoinFrame wildcards)

/-- The way from what a branch stands on up to the root, past the condition that there may be. -/
def filteredPath (target asName : String) (predicate : Option Expr) (c : Clauses) : Path :=
  Branch.frame asName :: j.frame :: (Expr.filterPath predicate ++ c.path target)

theorem clear_filteredPath (target asName : String) (hpredicate : ∀ p ∈ predicate, p.IsPredicate)
    (c : Clauses)
    (hcondition : ((c.path target).expected .flatSelect queryRoots).contains .condition = true) :
    (j.filteredPath target asName predicate c).Clear .flatSelect queryRoots := by
  have hpath := j.clear_path target asName c
  cases predicate with
  | none => exact hpath
  | some p =>
      obtain ⟨hbranch, hasName, _, hbeside, hclear⟩ := hpath
      refine ⟨hbranch, hasName, ?_, hbeside, hcondition, ?_, hclear⟩
      · rw [j.kind_eq]
        rfl
      · exact Option.or_eq_none_iff.mpr ⟨(hpredicate p rfl).fits, rfl⟩

/-- A projection leaves its branch, the join and the condition for the clauses above. -/
theorem rise_filteredPath (target asName : String) (predicate : Option Expr) (c : Clauses)
    (entries : List String) (below : Subtree) :
    ∃ outcome, ((Layer.projection entries).frame.fill none).rise .flatSelect 0 below 0
        (j.filteredPath target asName predicate c) =
      .ok (outcome, (j.filteredPath target asName predicate (c.addProjection
        (entries.map (Columns.qualify asName) ++ wildcards))).fill below) := by
  let said := entries.map (Columns.qualify asName) ++ wildcards
  let joined := Path.fill [Branch.frame asName, j.frame] below
  have hleaves : ((Layer.projection entries).frame.fill none).rise .flatSelect 0 below 0
      (j.filteredPath target asName predicate c) =
        ((Layer.projection said).frame.fill none).rise .flatSelect 0 joined 2
          (Expr.filterPath predicate ++ c.path target) :=
    j.rise_leaving asName (.projection entries)
  obtain ⟨steps, hcrosses⟩ := @Layer.rise_projection_filter joined 2 (c.path target) said predicate
  obtain ⟨outcome, hlands⟩ := @Clauses.rise_projection target
    ((Expr.filterPath predicate).fill joined) steps c said
  refine ⟨outcome, hleaves.trans (hcrosses.trans (hlands.trans ?_))⟩
  rw [← Path.fill_append]
  rfl

theorem liftsTo_filteredPath (target asName : String) (hpredicate : ∀ p ∈ predicate, p.IsPredicate)
    (c : Clauses)
    (hcondition : ((c.path target).expected .flatSelect queryRoots).contains .condition = true)
    (entries : List String) (below : Subtree) :
    ((j.filteredPath target asName predicate c).fill
        ((Layer.projection entries).frame.fill (some below))).LiftsTo .flatSelect queryRoots
      (.ok ((j.filteredPath target asName predicate (c.addProjection
        (entries.map (Columns.qualify asName) ++ wildcards))).fill below)) :=
  @Layer.liftsTo below (.projection entries) _ (.ok _)
    (fun c => (j.filteredPath target asName predicate c).fill below)
    (j.clear_filteredPath target asName hpredicate c hcondition) (by simp [filteredPath]) rfl
    (j.rise_filteredPath target asName predicate c entries below)

end JoinFrame

/-! ### Joins with a projection in either branch -/

namespace Expr

/-- A join of two branches with aliases, with the condition upon it that there may be. -/
def joined (asName other : String) (predicate : Option Expr) (left right : Expr) : Expr :=
  filtered predicate (input2 (renameAll asName left) (renameAll other right))

variable {asName other : String} {left right : List String}

theorem check_filtered (hpredicate : ∀ p ∈ predicate, p.IsPredicate) {operand : Expr}
    (h : operand.check = .ok ()) : (filtered predicate operand).check = .ok () := by
  cases predicate with
  | none => exact h
  | some p => exact check_condition (hpredicate p rfl).check_eq_ok h

/-- A projection upon a join of stored relations is a flat select. -/
theorem isFlatSelect_joined (hpredicate : ∀ p ∈ predicate, p.IsPredicate)
    (target asName other r s : String) (entries : List String) :
    (assign target (projection entries
      (joined asName other predicate (input1 r) (input1 s)))).IsFlatSelect := by
  have hbranch : ∀ asName relation, (renameAll asName (input1 relation)).IsBranch :=
    fun asName relation => .aliased (.name asName) (.stored (.name relation))
  exact ⟨.name target, [], [], some (.columns entries), predicate, _, hpredicate,
    .joined (hbranch asName r) (hbranch other s), rfl⟩

/-- The left projection comes up first and lets the right branch through, then the right one comes
up, lets the left branch through and is merged with the first. -/
theorem settles_joined_projections (hpredicate : ∀ p ∈ predicate, p.IsPredicate)
    (target asName other r s : String) (left right : List String) :
    let outer := left.map (Columns.qualify asName) ++ [Columns.qualify other "*"]
    let inner := right.map (Columns.qualify other) ++ [Columns.qualify asName "*"]
    (assign target (joined asName other predicate (projection left (input1 r))
      (projection right (input1 s)))).bare.Settles .flatSelect queryRoots 2
      (.ok (assign target (projection (Columns.intersect inner outer)
        (joined asName other predicate (input1 r) (input1 s)))).bare) := by
  intro outer inner
  let j : JoinFrame [Columns.qualify other "*"] :=
    .beforeRight (.aliased other [.projection right] (.input1 s))
  let j' : JoinFrame [Columns.qualify asName "*"] := .afterLeft (.aliased asName [] (.input1 r))
  let c := Clauses.empty.addProjection outer
  let flat := assign target (projection (Columns.intersect inner outer)
    (joined asName other predicate (input1 r) (input1 s)))
  have hstart : (assign target (joined asName other predicate (projection left (input1 r))
      (projection right (input1 s)))).bare = (j.filteredPath target asName predicate .empty).fill
        ((Layer.projection left).frame.fill (some (input1 r).bare)) := by
    cases predicate <;> rfl
  have hmiddle : (j.filteredPath target asName predicate c).fill (input1 r).bare =
      (j'.filteredPath target other predicate c).fill
        ((Layer.projection right).frame.fill (some (input1 s).bare)) := by
    cases predicate <;> rfl
  have hend : (j'.filteredPath target other predicate (c.addProjection inner)).fill
      (input1 s).bare = flat.bare := by
    cases predicate <;> rfl
  -- The frame beside the left branch has the right one as it was, and the frame beside the right
  -- branch the left one without its projection.
  have hleft := j.liftsTo_filteredPath target asName hpredicate .empty rfl left (input1 r).bare
  have hright := j'.liftsTo_filteredPath target other hpredicate c rfl right (input1 s).bare
  have hflat : flat.bare.deviation? .flatSelect queryRoots = none :=
    (isFlatSelect_joined hpredicate target asName other r s _).fits
  rw [hstart]
  refine (Subtree.abreast_of_lift hleft hleft ?_).settles
  change ((j.filteredPath target asName predicate c).fill _).Abreast _ _ _ 1 _ _
  rw [hmiddle]
  refine Subtree.abreast_of_lift hright hright ?_
  change ((j'.filteredPath target other predicate (c.addProjection inner)).fill _).Abreast
    _ _ _ 0 _ _
  rw [hend]
  exact Subtree.abreast_of_canonical hflat hflat

/-- Take a join of two stored relations under different aliases, with a projection in either branch
and any condition upon it. If the aliases are no wildcards and have no dots, and the listed columns
are no wildcards and have no line feeds, then the query makes sense, and its normalization gives the
flat select with one projection: of the columns of the left branch, each said to be of it, and then
of those of the right one, both in their order and without repeats. -/
theorem normalize_joined_projections (hasName : Columns.PlainAlias asName)
    (hother : Columns.PlainAlias other) (hne : asName ≠ other)
    (hleft : ∀ column ∈ left, Columns.PlainName column)
    (hright : ∀ column ∈ right, Columns.PlainName column)
    (hpredicate : ∀ p ∈ predicate, p.IsPredicate) {budget : Nat} (hbudget : 2 ≤ budget)
    (target r s : String) :
    let entries := (left.map (Columns.qualify asName)).eraseDups ++
      (right.map (Columns.qualify other)).eraseDups
    ∃ t tally flat,
      Tree.ofExpr (assign target (joined asName other predicate
        (projection left (input1 r)) (projection right (input1 s)))) = .ok t ∧
      Edit.normalize .flatSelect queryRoots budget t = .ok tally flat ∧
      Tree.ofExpr (assign target (projection entries
        (joined asName other predicate (input1 r) (input1 s)))) = .ok flat := by
  intro entries
  have hcheck : (assign target (joined asName other predicate (projection left (input1 r))
      (projection right (input1 s)))).check = .ok () :=
    check_assign target (check_filtered hpredicate (Source.check_toExpr (.join
      (.aliased asName [.projection left] (.input1 r))
      (.aliased other [.projection right] (.input1 s)))))
  have hcheck' : (assign target (projection entries
      (joined asName other predicate (input1 r) (input1 s)))).check = .ok () :=
    check_assign target ((Layer.projection entries).check_wrap (check_filtered hpredicate
      (Source.check_toExpr (.join (.aliased asName [] (.input1 r))
        (.aliased other [] (.input1 s))))))
  have ht : Tree.ofExpr _ = .ok _ := Tree.ofExpr_eq_ok.mpr ⟨hcheck, rfl⟩
  have hsettles := settles_joined_projections hpredicate target asName other r s left right
  simp only [Columns.intersect_branches hasName hother hne hleft hright] at hsettles
  obtain ⟨tally, last, hrun, hlast⟩ :=
    Edit.normalize_of_settles hsettles (Tree.bears_of_ofExpr ht) hbudget
  exact ⟨_, tally, last.compact, ht, hrun, hlast.ofExpr_eq hcheck'⟩

/-- A column that is listed twice is kept where it comes first. -/
theorem normalize_joined_projections_repeats :
    let predicate := op .equals [name "A.a", name "B.c"]
    Columns.PlainAlias "A" ∧ Columns.PlainAlias "B" ∧ "A" ≠ "B" ∧
      (∀ column ∈ ["b", "a", "b"], Columns.PlainName column) ∧
      (∀ column ∈ ["c"], Columns.PlainName column) ∧
      (∀ p ∈ some predicate, p.IsPredicate) ∧ 2 ≤ 2 ∧
      ∃ t tally flat,
        Tree.ofExpr (assign "T" (joined "A" "B" (some predicate)
          (projection ["b", "a", "b"] (input1 "r")) (projection ["c"] (input1 "s")))) = .ok t ∧
        Edit.normalize .flatSelect queryRoots 2 t = .ok tally flat ∧
        Tree.ofExpr (assign "T" (projection ["A.b", "A.a", "B.c"]
          (joined "A" "B" (some predicate) (input1 "r") (input1 "s")))) = .ok flat := by
  intro predicate
  have hA : Columns.PlainAlias "A" := ⟨by decide, by decide⟩
  have hB : Columns.PlainAlias "B" := ⟨by decide, by decide⟩
  have hne : "A" ≠ "B" := by decide
  have hleft : ∀ column ∈ ["b", "a", "b"], Columns.PlainName column := by
    simp only [List.forall_mem_cons]
    exact ⟨⟨by decide, by decide⟩, ⟨by decide, by decide⟩, ⟨by decide, by decide⟩, nofun⟩
  have hright : ∀ column ∈ ["c"], Columns.PlainName column := by
    simp only [List.forall_mem_cons]
    exact ⟨⟨by decide, by decide⟩, nofun⟩
  have hpredicate : ∀ p ∈ some predicate, p.IsPredicate := by
    rintro _ ⟨⟩
    exact .binary rfl (.leaf (.name "A.a")) (.leaf (.name "B.c"))
  have hentries : (["b", "a", "b"].map (Columns.qualify "A")).eraseDups ++
      (["c"].map (Columns.qualify "B")).eraseDups = ["A.b", "A.a", "B.c"] := by decide +kernel
  refine ⟨hA, hB, hne, hleft, hright, hpredicate, Nat.le_refl 2, ?_⟩
  rw [← hentries]
  exact normalize_joined_projections hA hB hne hleft hright hpredicate (Nat.le_refl 2) "T" "r" "s"

end Expr

end FlatSelect
