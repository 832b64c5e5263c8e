import FlatSelect.Tree.Edit
import FlatSelect.Tree.Names

/-!
# Transfers

When a node is lifted past its parent, what the two say to each other has to be put in other words:
a column renamed below a projection is projected under its old name above it, a predicate that
leaves a join branch has to say which branch its columns are of, and so on. A transfer is one such
rule. It changes values, or makes two predicates into one; moving the node is not its business.

The table says which transfer applies to which pair of kinds. Where it has no entry, a node cannot
be lifted.
-/

namespace FlatSelect

/-- A node that is lifted out of a place, past the parent whose place it is. -/
structure Crossing where
  node : NodeId
  place : Place
deriving DecidableEq, Repr

/-- What becomes of the node that crosses. -/
inductive Verdict where
  /-- It is above the parent now and may have to go on. -/
  | rises
  /-- What it did, the parent does now. -/
  | absorbed
deriving DecidableEq, Repr

/-- The rules for crossing a parent. -/
inductive Transfer where
  /-- Nothing changes. -/
  | pass
  /-- Both names of a rename take on the alias of the branch. -/
  | qualifyRename
  /-- Every entry of a projection takes on the alias of the branch. -/
  | qualifyProjection
  /-- The columns of a predicate take on the alias of the branch. -/
  | qualifyCondition
  /-- The predicate that a rename crosses speaks of the old name. -/
  | renameInCondition
  /-- The list that a rename crosses speaks of the old name, or takes the rename in. -/
  | renameInProjection
  /-- The derived column that a rename crosses reads the old name. -/
  | renameInSource
  /-- A derived column leaves the list it crosses, or vanishes if the list has no use for it. -/
  | deriveOverProjection
  /-- A derived column crosses no condition that reads it. -/
  | deriveOverCondition
  /-- A projection of one branch lets all columns of the others through. -/
  | widenProjection
  /-- Of two projections one is made. -/
  | mergeProjections
  /-- Of two conditions one is made. -/
  | conjoinConditions
deriving DecidableEq, Repr

namespace Transfer

/-- Which kind can be lifted past which, and how. -/
def table : List (Kind × Kind × Transfer) :=
  [(.rename, .renameAll, qualifyRename),
    (.rename, .input1, pass),
    (.rename, .input2, pass),
    (.rename, .condition, renameInCondition),
    (.rename, .projection, renameInProjection),
    (.rename, .extraColumn, renameInSource),
    (.extraColumn, .projection, deriveOverProjection),
    (.extraColumn, .condition, deriveOverCondition),
    (.projection, .renameAll, qualifyProjection),
    (.projection, .input1, widenProjection),
    (.projection, .input2, widenProjection),
    (.projection, .condition, pass),
    (.projection, .projection, mergeProjections),
    (.condition, .renameAll, qualifyCondition),
    (.condition, .input1, pass),
    (.condition, .input2, pass),
    (.condition, .condition, conjoinConditions)]

/-- The transfer for a node of one kind past a parent of another. -/
def between? (node parent : Kind) : Option Transfer :=
  (table.find? fun (n, p, _) => n = node ∧ p = parent).map fun (_, _, rule) => rule

/-- The kinds that a node can be lifted past, in the order of the table. -/
def liftsPast (node : Kind) : List Kind :=
  (table.filter fun (n, _, _) => n = node).map fun (_, parent, _) => parent

end Transfer

namespace Tree

/-! ### What a node says -/

/-- The name that a branch of a join goes by: its alias, or else the name of its relation. -/
def branchAlias? (t : Tree) (branch : NodeId) : Option String :=
  match t.kind branch with
  | .renameAll | .input1 => (t.slotValue branch 0).bind Value.asName?
  | .constant => (t.value branch).bind Value.asName?
  | _ => none

/-- The predicate of a condition. -/
def predicate? (t : Tree) (condition : NodeId) : Option NodeId :=
  t.child condition 0

/-- The new and the old name of a rename. -/
def renamePair? (t : Tree) (id : NodeId) : Option (String × String) :=
  (t.slotValue id 0).bind Value.asRename?

/-- The alias and the source of a derived column. -/
def derivedColumn? (t : Tree) (id : NodeId) : Option (String × String) :=
  (t.slotValue id 0).bind Value.asDerived?

/-- The entries of a projection. -/
def columns? (t : Tree) (id : NodeId) : Option (List String) :=
  (t.slotValue id 0).bind Value.asColumns?

/-- Overwrites the parameter of a node, the value in its slot 0. -/
def setParameter (t : Tree) (id : NodeId) (value : Value) : Tree :=
  (t.child id 0).elim t fun leaf => t.setValue leaf value

/-- The wildcards that stand for all columns of the branches beside a place. -/
def siblingWildcards (t : Tree) (place : Place) : List String :=
  ((t.occupied place.parent).filter fun (slot, _) => slot ≠ place.slot).filterMap fun (_, branch) =>
    (t.branchAlias? branch).map (Columns.qualify · "*")

end Tree

namespace Edit

/-- The name that a branch of a join goes by. -/
def branchAlias (branch : NodeId) : Edit String :=
  require (·.branchAlias? branch) .noBranchAlias

/-- The predicate of a condition. -/
def predicate (condition : NodeId) : Edit NodeId :=
  require (·.predicate? condition) .noPredicate

/-- The new and the old name of a rename. -/
def renamePair (id : NodeId) : Edit (String × String) :=
  require (·.renamePair? id) .noRenamePair

/-- The alias and the source of a derived column. -/
def derivedColumn (id : NodeId) : Edit (String × String) :=
  require (·.derivedColumn? id) .noDerivedColumn

/-- The entries of a projection. -/
def columns (id : NodeId) : Edit (List String) :=
  require (·.columns? id) .noColumnList

end Edit

namespace Columns

/-- The entries below a rename of `old` to `new` that has been lifted above them, unless none of
them selects `new`. An entry `new` becomes `old`. If only a wildcard selects `new`, then `old` is
put right after it, unless it is selected anyway. -/
def foldRename? (entries : List String) (new old : String) : Option (List String) :=
  if new ∈ entries then
    some (entries.replace new old)
  else
    (coveringWildcard? entries new).map fun position =>
      if old ∈ entries ∨ (coveringWildcard? entries old).isSome then entries
      else entries.insertIdx (position + 1) old

/-- The entries below a derived column that has been lifted above them. -/
def withoutDerived (entries : List String) (asName : String) : List String :=
  entries.filter (· ≠ asName)

/-- Whether the entries select a derived column, by name or by wildcard. -/
def selectDerived (entries : List String) (asName : String) : Bool :=
  asName ∈ entries || (coveringWildcard? (withoutDerived entries asName) asName).isSome

/-- What becomes of the entries below a rename of `old` to `new` that is lifted above them. -/
inductive Folds (new old : String) : List String → Option (List String) → Prop
  /-- The first entry `new` becomes `old`. -/
  | named {before after : List String} (hnew : new ∉ before) :
    Folds new old (before ++ new :: after) (some (before ++ old :: after))
  /-- Where wildcards alone select `new`, and `old` is selected anyway, nothing changes. -/
  | kept {entries : List String} (hnamed : new ∉ entries) (hnew : Selects entries new)
    (hold : Selects entries old) : Folds new old entries (some entries)
  /-- Otherwise `old` comes right after the first wildcard that covers `new`. -/
  | added {before after : List String} {entry : String} (hnamed : new ∉ before ++ entry :: after)
    (hnew : FirstCovering before entry new) (hold : ¬ Selects (before ++ entry :: after) old) :
    Folds new old (before ++ entry :: after) (some (before ++ entry :: old :: after))
  /-- Where nothing selects `new`, there is no use for the rename. -/
  | lost {entries : List String} (hnew : ¬ Selects entries new) : Folds new old entries none

variable {entries before after : List String} {new old asName : String}

theorem insertIdx_after (entry : String) (before after : List String) :
    (before ++ entry :: after).insertIdx (before.length + 1) old =
      before ++ entry :: old :: after := by
  induction before with
  | nil => rfl
  | cons first before ih => exact congrArg (first :: ·) ih

theorem replace_first (hnew : new ∉ before) :
    (before ++ new :: after).replace new old = before ++ old :: after := by
  rw [List.replace_append, if_neg hnew, List.replace_cons_self]

/-- Whether there is a use for a rename is whether its new name is selected, and the old name takes
its place or stands beside the wildcard that covers it. -/
theorem foldRename?_eq_iff {folded : Option (List String)} :
    foldRename? entries new old = folded ↔ Folds new old entries folded := by
  constructor
  · rintro rfl
    by_cases hnamed : new ∈ entries
    · obtain ⟨before, after, rfl, hbefore⟩ := List.eq_append_cons_of_mem hnamed
      rw [foldRename?, if_pos hnamed, replace_first hbefore]
      exact .named hbefore
    · rw [foldRename?, if_neg hnamed]
      cases hfound : coveringWildcard? entries new with
      | none =>
          refine .lost fun hnew => ?_
          rw [selects_iff, hfound] at hnew
          exact hnew.elim hnamed nofun
      | some position =>
          have hnew : Selects entries new := selects_iff.mpr (.inr (hfound ▸ rfl))
          rw [Option.map_some]
          split
          case isTrue hold => exact .kept hnamed hnew (selects_iff.mpr hold)
          case isFalse hold =>
            obtain ⟨before, entry, after, rfl, rfl, hentry⟩ :=
              coveringWildcard?_eq_some_iff.mp hfound
            rw [insertIdx_after]
            exact .added hnamed hentry (mt selects_iff.mp hold)
  · intro h
    cases h with
    | named hbefore =>
        rw [foldRename?, if_pos (List.mem_append_right _ List.mem_cons_self), replace_first hbefore]
    | kept hnamed hnew hold =>
        obtain ⟨position, hfound⟩ :=
          Option.isSome_iff_exists.mp ((selects_iff.mp hnew).resolve_left hnamed)
        rw [foldRename?, if_neg hnamed, hfound, Option.map_some, if_pos (selects_iff.mp hold)]
    | @added before after entry hnamed hentry hold =>
        have hfound : coveringWildcard? (before ++ entry :: after) new = some before.length :=
          coveringWildcard?_eq_some_iff.mpr ⟨before, entry, after, rfl, rfl, hentry⟩
        rw [foldRename?, if_neg hnamed, hfound, Option.map_some, if_neg (mt selects_iff.mpr hold),
          insertIdx_after]
    | lost hnew =>
        obtain ⟨hnamed, hfound⟩ := not_or.mp (mt selects_iff.mpr hnew)
        rw [foldRename?, if_neg hnamed, Option.not_isSome_iff_eq_none.mp hfound, Option.map_none]

example : foldRename? ["b", "a*", "c"] "ax" "y" = some ["b", "a*", "y", "c"] := by decide +kernel

theorem withoutDerived_of_notMem (h : asName ∉ entries) :
    withoutDerived entries asName = entries := by
  refine List.filter_eq_self.mpr fun entry hentry => decide_eq_true ?_
  rintro rfl
  exact h hentry

/-- A derived column is selected as any other name is. -/
theorem selectDerived_iff : selectDerived entries asName = true ↔ Selects entries asName := by
  rw [selectDerived, Bool.or_eq_true, decide_eq_true_eq, selects_iff]
  by_cases h : asName ∈ entries
  · exact iff_of_true (.inl h) (.inl h)
  · rw [withoutDerived_of_notMem h]

end Columns

namespace Transfer

/-- Applies a transfer. -/
def apply (x : Crossing) : Transfer → Edit Verdict
  | pass => return .rises
  | qualifyRename => do
    let asName ← Edit.branchAlias x.place.parent
    let (new, old) ← Edit.renamePair x.node
    let pair := .rename (Columns.qualify asName new) (Columns.qualify asName old)
    modify (·.setParameter x.node pair)
    return .rises
  | qualifyProjection => do
    let asName ← Edit.branchAlias x.place.parent
    let entries ← Edit.columns x.node
    modify (·.setParameter x.node (.columns (entries.map (Columns.qualify asName))))
    return .rises
  | qualifyCondition => do
    let asName ← Edit.branchAlias x.place.parent
    let top ← Edit.predicate x.node
    modify fun t => (t.qualifyNames top asName).2
    return .rises
  | renameInCondition => do
    let (new, old) ← Edit.renamePair x.node
    let top ← Edit.predicate x.place.parent
    modify fun t => (t.replaceNames top new old).2
    return .rises
  | renameInProjection => do
    let (new, old) ← Edit.renamePair x.node
    let entries ← Edit.columns x.place.parent
    match Columns.foldRename? entries new old with
    | none => return .absorbed
    | some entries => do
      modify (·.setParameter x.place.parent (.columns entries))
      return .rises
  | renameInSource => do
    let (new, old) ← Edit.renamePair x.node
    let (asName, source) ← Edit.derivedColumn x.place.parent
    let source := if source = new then old else source
    modify (·.setParameter x.place.parent (.derived asName source))
    return .rises
  | deriveOverProjection => do
    let (asName, _) ← Edit.derivedColumn x.node
    let entries ← Edit.columns x.place.parent
    modify (·.setParameter x.place.parent (.columns (Columns.withoutDerived entries asName)))
    return if Columns.selectDerived entries asName then .rises else .absorbed
  | deriveOverCondition => do
    let (asName, _) ← Edit.derivedColumn x.node
    let top ← Edit.predicate x.place.parent
    if (← get).mentions top asName then throw (.nonCanonicalizable (.columnRead asName))
    return .rises
  | widenProjection => do
    let others := (← get).siblingWildcards x.place
    let entries ← Edit.columns x.node
    modify (·.setParameter x.node (.columns (entries ++ others)))
    return .rises
  | mergeProjections => do
    let inner ← Edit.columns x.node
    let outer ← Edit.columns x.place.parent
    modify (·.setParameter x.place.parent (.columns (Columns.intersect inner outer)))
    return .absorbed
  | conjoinConditions => do
    let outer ← Edit.predicate x.place.parent
    let inner ← Edit.predicate x.node
    modify fun t => (t.takeChild ⟨x.place.parent, 0⟩).2
    modify fun t => (t.takeChild ⟨x.node, 0⟩).2
    let both ← modifyGet (·.push .and none [some outer, some inner])
    modify (·.setChild ⟨x.place.parent, 0⟩ both)
    return .absorbed

end Transfer

end FlatSelect
