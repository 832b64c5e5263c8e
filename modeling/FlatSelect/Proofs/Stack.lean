import FlatSelect.Proofs.Layers
import FlatSelect.Proofs.Settling
import FlatSelect.Proofs.Shapes
import Mathlib.Data.List.Induction

/-!
# Lifting a layer

The clauses of a flat select make a path: its frames, from the innermost clause to the root. Taking
a layer up this path, whatever hangs at its foot, gives the path of the clauses with that layer
added (`Clauses.rise_add`). There is a rule for each clause that a layer crosses, and each clause
that it does not cross is one that it may stand under.
-/

namespace FlatSelect

namespace Formula

@[simp] theorem bare_name (text : String) :
    (name text).toExpr.bare = .node 0 .constant (some (.name text)) [] := rfl

@[simp] theorem bare_not (operand : Formula) :
    operand.not.toExpr.bare = .node 0 .not none [some operand.toExpr.bare] := rfl

@[simp] theorem bare_binary (kind : Kind) (infixed : kind.sqlOperator.isSome = true)
    (left right : Formula) : (binary kind infixed left right).toExpr.bare =
      .node 0 kind none [some left.toExpr.bare, some right.toExpr.bare] := rfl

/-- Changing the names of a predicate changes the names at its leaves. -/
theorem bare_mapNames (p : Formula) (f : String → Option String) :
    p.toExpr.bare.mapNames f = (p.map fun text => (f text).getD text).toExpr.bare := by
  induction p with
  | name text =>
      rw [bare_name, Formula.map, bare_name, Subtree.mapNames, Subtree.mapNamesIn]
      cases hf : f text <;> simp [Subtree.renamed, Value.mapName?, hf]
  | not operand ih =>
      rw [bare_not, Formula.map, bare_not, Subtree.mapNames, Subtree.mapNamesIn,
        Subtree.mapNamesIn, ih]
      rfl
  | binary kind infixed left right ihl ihr =>
      rw [bare_binary, Formula.map, bare_binary, Subtree.mapNames, Subtree.mapNamesIn,
        Subtree.mapNamesIn, Subtree.mapNamesIn, ihl, ihr]
      rfl

theorem bare_mentions (p : Formula) (text : String) :
    p.toExpr.bare.mentions text = decide (text ∈ p.leaves) := by
  have hvalue : ∀ id kind value slots, (Subtree.node id kind value slots).value = value :=
    fun _ _ _ _ => rfl
  induction p with
  | name found =>
      simp [Subtree.mentions, Subtree.preorder, Subtree.preorderAll, hvalue, leaves, eq_comm]
  | not operand ih =>
      simp only [Subtree.mentions] at ih
      simp only [bare_not, Subtree.mentions, Subtree.preorder, Subtree.preorderAll, hvalue,
        List.any_cons, List.append_nil, ih]
      rfl
  | binary kind infixed left right ihl ihr =>
      simp only [Subtree.mentions] at ihl ihr
      simp [Subtree.mentions, Subtree.preorder, Subtree.preorderAll, hvalue, leaves, ihl, ihr]

theorem isPredicate (p : Formula) : p.toExpr.IsPredicate := by
  induction p with
  | name text => exact .leaf (.name text)
  | not _ ih => exact .not ih
  | binary _ infixed _ _ ihl ihr => exact .binary infixed ihl ihr

/-- A predicate may stand wherever one is asked for. -/
theorem deviation?_bare (p : Formula) :
    p.toExpr.bare.deviation? .flatSelect .predicates = none :=
  p.isPredicate.fits

theorem check_toExpr (p : Formula) : p.toExpr.check = .ok () :=
  p.isPredicate.check_eq_ok

end Formula

/-- The condition that there may be, without what it stands on. -/
def Expr.filterPath (predicate : Option Expr) : Path :=
  predicate.toList.map fun p => ⟨0, .condition, none, [some p.bare], []⟩

namespace Layer

/-- What a layer has in slot 0. -/
def parameter : Layer → Expr
  | rename new old => .constant (.rename new old)
  | extraColumn asName source => .constant (.derived asName source)
  | projection entries => .constant (.columns entries)
  | condition predicate => predicate.toExpr

/-- A layer without its operand. -/
def frame (layer : Layer) : Frame :=
  ⟨0, layer.kind, none, [some layer.parameter.bare], []⟩

/-- The frames of several layers, the outermost layer first. -/
def path (layers : List Layer) : Path :=
  (layers.map frame).reverse

@[simp] theorem frame_kind (layer : Layer) : layer.frame.kind = layer.kind := rfl

@[simp] theorem frame_slot (layer : Layer) : layer.frame.slot = 1 := rfl

theorem path_append (outer inner : List Layer) :
    path (outer ++ inner) = path inner ++ path outer := by
  simp [path]

theorem path_cons (outer : Layer) (inner : List Layer) :
    path (outer :: inner) = path inner ++ [outer.frame] := by
  simp [path]

theorem path_concat (outer : List Layer) (inner : Layer) :
    path (outer ++ [inner]) = inner.frame :: path outer := by
  simp [path]

theorem path_renames_concat (pairs : List (String × String)) (new old : String) :
    path (renames (pairs ++ [(new, old)])) = (rename new old).frame :: path (renames pairs) := by
  simp [renames, path]

theorem path_extraColumns_concat (columns : List (String × String)) (asName source : String) :
    path (extraColumns (columns ++ [(asName, source)])) =
      (extraColumn asName source).frame :: path (extraColumns columns) := by
  simp [extraColumns, path]

theorem bare_wrap (layer : Layer) (operand : Expr) :
    (layer.wrap operand).bare = layer.frame.fill (some operand.bare) := by
  cases layer <;> rfl

theorem bare_stack (layers : List Layer) (operand : Expr) :
    (stack layers operand).bare = (path layers).fill operand.bare := by
  induction layers with
  | nil => rfl
  | cons outer inner ih =>
      rw [path_cons, Path.fill_append, ← ih]
      exact bare_wrap outer _

variable {g : Grammar} {below : Subtree} {steps : Nat} {above : Path}

/-- A layer that may stand at the foot of a path lands there. -/
theorem rise_lands {layer : Layer} {f : Frame} (h : g.allows f.kind f.slot layer.kind = true) :
    ∃ outcome, (layer.frame.fill none).rise g 0 below steps (f :: above) =
      .ok (outcome, Path.fill (layer.frame :: f :: above) below) :=
  ⟨_, Subtree.rise_lands h⟩

/-- A layer that crosses another one. -/
theorem rise_crosses {layer : Layer} (outer layer' outer' : Layer) {rule : Transfer}
    (hallows : g.allows outer.kind 1 layer.kind = false)
    (hrule : Transfer.between? layer.kind outer.kind = some rule)
    (hcross : rule.cross 0 (layer.frame.fill none) (outer.frame.fill (some below)) 1 =
      .ok (.rises (layer'.frame.fill none) (outer'.frame.fill (some below)))) :
    (layer.frame.fill none).rise g 0 below steps (outer.frame :: above) =
      (layer'.frame.fill none).rise g 0 (Path.fill [outer'.frame] below) (steps + 1) above :=
  Subtree.rise_rises rule _ _ hallows hrule hcross

/-- A layer that another one absorbs. -/
theorem rise_absorbed {layer outer : Layer} (outer' : Layer) {rule : Transfer}
    (hallows : g.allows outer.kind 1 layer.kind = false)
    (hrule : Transfer.between? layer.kind outer.kind = some rule)
    (hcross : rule.cross 0 (layer.frame.fill none) (outer.frame.fill (some below)) 1 =
      .ok (.absorbed (outer'.frame.fill (some below)))) :
    ∃ outcome, (layer.frame.fill none).rise g 0 below steps (outer.frame :: above) =
      .ok (outcome, Path.fill (outer'.frame :: above) below) :=
  ⟨_, Subtree.rise_absorbed hallows hrule hcross⟩

/-! ### Renames -/

theorem rise_rename_conditions (new old : String) (condition : Option Formula) :
    ∃ steps', ((rename new old).frame.fill none).rise .flatSelect 0 below steps
        (path (conditions condition) ++ above) =
      ((rename new old).frame.fill none).rise .flatSelect 0
        ((path (conditions (condition.map (·.replace new old)))).fill below) steps' above := by
  cases condition with
  | none => exact ⟨steps, rfl⟩
  | some p =>
      have hmap : p.toExpr.bare.mapNames (fun text => if text = new then some old else none) =
          (p.replace new old).toExpr.bare := by
        have hif : ∀ text, (if text = new then some old else none).getD text =
            if text = new then old else text := by
          intro text
          split <;> rfl
        simp only [Formula.bare_mapNames, Formula.replace, hif]
      refine ⟨steps + 1, rise_crosses (.condition p) (.rename new old)
        (.condition (p.replace new old)) rfl rfl ?_⟩
      exact congrArg (fun top => Except.ok (Crossed.rises ((rename new old).frame.fill none)
        (.node 0 .condition none [some top, some below]))) hmap

theorem rise_rename_projection_none {new old : String} {entries : List String}
    (h : Columns.foldRename? entries new old = none) :
    ∃ outcome, ((rename new old).frame.fill none).rise .flatSelect 0 below steps
        ((projection entries).frame :: above) =
      .ok (outcome, Path.fill ((projection entries).frame :: above) below) := by
  refine rise_absorbed (.projection entries) rfl rfl ?_
  rw [Transfer.cross_renameInProjection rfl rfl, h]
  rfl

theorem rise_rename_projection_some {new old : String} {entries folded : List String}
    (h : Columns.foldRename? entries new old = some folded) :
    ((rename new old).frame.fill none).rise .flatSelect 0 below steps
        ((projection entries).frame :: above) =
      ((rename new old).frame.fill none).rise .flatSelect 0
        (Path.fill [(projection folded).frame] below) (steps + 1) above := by
  refine rise_crosses (.projection entries) (.rename new old) (.projection folded) rfl rfl ?_
  rw [Transfer.cross_renameInProjection rfl rfl, h]
  rfl

theorem rise_rename_extraColumns (new old : String) (columns : List (String × String)) :
    ∃ steps', ((rename new old).frame.fill none).rise .flatSelect 0 below steps
        (path (extraColumns columns) ++ above) =
      ((rename new old).frame.fill none).rise .flatSelect 0
        ((path (extraColumns (columns.map fun (asName, source) =>
          (asName, if source = new then old else source)))).fill below) steps' above := by
  induction columns using List.reverseRecOn generalizing below steps with
  | nil => exact ⟨steps, rfl⟩
  | append_singleton columns column ih =>
      obtain ⟨asName, source⟩ := column
      let crossed := extraColumn asName (if source = new then old else source)
      have hcross := @rise_crosses .flatSelect below steps (path (extraColumns columns) ++ above)
        (.rename new old) (.extraColumn asName source) (.rename new old) crossed .renameInSource
        rfl rfl rfl
      obtain ⟨steps', hrest⟩ := @ih (Path.fill [crossed.frame] below) (steps + 1)
      refine ⟨steps', ?_⟩
      rw [List.map_append, List.map_cons, List.map_nil, path_extraColumns_concat,
        path_extraColumns_concat]
      exact hcross.trans hrest

/-! ### Derived columns, projections and conditions -/

theorem rise_extraColumn_condition (below : Subtree) (steps : Nat) (above : Path)
    (asName source : String) (p : Formula) :
    ((extraColumn asName source).frame.fill none).rise .flatSelect 0 below steps
        ((condition p).frame :: above) =
      if asName ∈ p.leaves then .error (.nonCanonicalizable (.columnRead asName))
      else ((extraColumn asName source).frame.fill none).rise .flatSelect 0
        (Path.fill [(condition p).frame] below) (steps + 1) above := by
  have hcross : Transfer.deriveOverCondition.cross 0 ((extraColumn asName source).frame.fill none)
      ((condition p).frame.fill (some below)) 1 =
        if asName ∈ p.leaves then .error (.nonCanonicalizable (.columnRead asName))
        else .ok (.rises ((extraColumn asName source).frame.fill none)
          ((condition p).frame.fill (some below))) := by
    change (if p.toExpr.bare.mentions asName = true then _ else _) = _
    simp only [Formula.bare_mentions, decide_eq_true_eq]
    rfl
  split
  case isTrue h =>
    rw [if_pos h] at hcross
    exact Subtree.rise_fails rfl rfl hcross
  case isFalse h =>
    rw [if_neg h] at hcross
    exact rise_crosses (.condition p) (.extraColumn asName source) (.condition p) rfl rfl hcross

theorem rise_extraColumn_projection (below : Subtree) (steps : Nat) (above : Path)
    (asName source : String) (entries : List String) :
    let left := projection (Columns.withoutDerived entries asName)
    if Columns.selectDerived entries asName then
      ((extraColumn asName source).frame.fill none).rise .flatSelect 0 below steps
          ((projection entries).frame :: above) =
        ((extraColumn asName source).frame.fill none).rise .flatSelect 0
          (Path.fill [left.frame] below) (steps + 1) above
    else ∃ outcome, ((extraColumn asName source).frame.fill none).rise .flatSelect 0 below steps
          ((projection entries).frame :: above) =
        .ok (outcome, Path.fill (left.frame :: above) below) := by
  intro left
  split
  case isTrue h =>
    refine rise_crosses (.projection entries) (.extraColumn asName source) left rfl rfl ?_
    change Except.ok (if Columns.selectDerived entries asName = true then _ else _) = _
    rw [if_pos h]
    rfl
  case isFalse h =>
    refine rise_absorbed left rfl rfl ?_
    change Except.ok (if Columns.selectDerived entries asName = true then _ else _) = _
    rw [if_neg h]
    rfl

/-- A projection crosses the condition that there may be, whatever its predicate is. -/
theorem rise_projection_filter (entries : List String) (predicate : Option Expr) :
    ∃ steps', ((projection entries).frame.fill none).rise .flatSelect 0 below steps
        (Expr.filterPath predicate ++ above) =
      ((projection entries).frame.fill none).rise .flatSelect 0
        ((Expr.filterPath predicate).fill below) steps' above := by
  cases predicate with
  | none => exact ⟨steps, rfl⟩
  | some p => exact ⟨steps + 1, Subtree.rise_rises .pass _ _ rfl rfl rfl⟩

theorem rise_projection_conditions {entries : List String} (condition : Option Formula) :
    ∃ steps', ((projection entries).frame.fill none).rise .flatSelect 0 below steps
        (path (conditions condition) ++ above) =
      ((projection entries).frame.fill none).rise .flatSelect 0
        ((path (conditions condition)).fill below) steps' above := by
  cases condition with
  | none => exact rise_projection_filter entries none
  | some p => exact rise_projection_filter entries (some p.toExpr)

theorem rise_projection_projection (inner outer : List String) :
    ∃ outcome, ((projection inner).frame.fill none).rise .flatSelect 0 below steps
        ((projection outer).frame :: above) =
      .ok (outcome,
        Path.fill ((projection (Columns.intersect inner outer)).frame :: above) below) :=
  rise_absorbed (.projection (Columns.intersect inner outer)) rfl rfl rfl

theorem rise_condition_condition (inner outer : Formula) :
    ∃ outcome, ((condition inner).frame.fill none).rise .flatSelect 0 below steps
        ((condition outer).frame :: above) =
      .ok (outcome, Path.fill ((condition (outer.both inner)).frame :: above) below) :=
  rise_absorbed (.condition (outer.both inner)) rfl rfl rfl

end Layer

namespace Clauses

/-- The root of a query without its body. -/
def rootFrame (target : String) : Frame :=
  ⟨0, .assign, none, [some (Expr.name target).bare], []⟩

/-- The frames of the clauses of a flat select, from the innermost clause to the root. -/
def path (target : String) (c : Clauses) : Path :=
  Layer.path c.layers ++ [rootFrame target]

theorem bare_assign (target : String) (c : Clauses) (operand : Expr) :
    (Expr.assign target (Layer.stack c.layers operand)).bare =
      (c.path target).fill operand.bare := by
  rw [path, Path.fill_append, ← Layer.bare_stack]
  rfl

variable {target : String} {below : Subtree} {steps : Nat}

/-- A layer lands below layers that it may stand under. -/
theorem rise_lands (target : String) (below : Subtree) (steps : Nat) (outer : List Layer)
    (layer : Layer)
    (h : ∀ l ∈ outer, Grammar.flatSelect.allows l.kind 1 layer.kind = true) :
    ∃ outcome, (layer.frame.fill none).rise .flatSelect 0 below steps
        (Layer.path outer ++ [rootFrame target]) =
      .ok (outcome, Path.fill (layer.frame :: (Layer.path outer ++ [rootFrame target])) below) := by
  cases outer using List.reverseRecOn with
  | nil => exact Layer.rise_lands (by cases layer <;> rfl)
  | append_singleton outer last =>
      rw [Layer.path_concat]
      exact Layer.rise_lands (h last (by simp))

theorem path_eq (c : Clauses) : c.path target = Layer.path (Layer.conditions c.condition) ++
    (Layer.path (Layer.projections c.projection) ++ (Layer.path (Layer.extraColumns c.derived) ++
      (Layer.path (Layer.renames c.renames) ++ [rootFrame target]))) := by
  simp only [path, layers, Layer.path_append, List.append_assoc]

theorem fill_path (c : Clauses) : (c.path target).fill below =
    Path.fill (Layer.path (Layer.renames c.renames) ++ [rootFrame target])
      ((Layer.path (Layer.extraColumns c.derived)).fill
        ((Layer.path (Layer.projections c.projection)).fill
          ((Layer.path (Layer.conditions c.condition)).fill below))) := by
  simp only [path_eq, Path.fill_append]

theorem rise_rename (c : Clauses) (new old : String) :
    ∃ outcome, ((Layer.rename new old).frame.fill none).rise .flatSelect 0 below steps
        (c.path target) = .ok (outcome, ((c.addRename new old).path target).fill below) := by
  have hlands : ∀ {below' : Subtree} {steps' : Nat},
      ∃ outcome, ((Layer.rename new old).frame.fill none).rise .flatSelect 0 below' steps'
        (Layer.path (Layer.renames c.renames) ++ [rootFrame target]) = .ok (outcome,
          Path.fill (Layer.path (Layer.renames (c.renames ++ [(new, old)])) ++ [rootFrame target])
            below') := by
    intro below' steps'
    have hrename : ∀ l ∈ Layer.renames c.renames,
        Grammar.flatSelect.allows l.kind 1 (Layer.rename new old).kind = true := by
      intro l hl
      rw [Layer.kind_of_mem_renames hl]
      rfl
    rw [Layer.path_renames_concat]
    exact rise_lands target below' steps' (Layer.renames c.renames) (.rename new old) hrename
  rw [path_eq]
  obtain ⟨_, hcondition⟩ := Layer.rise_rename_conditions new old c.condition
  rw [hcondition]
  cases hprojection : c.projection with
  | none =>
      obtain ⟨_, hderived⟩ := Layer.rise_rename_extraColumns new old c.derived
      obtain ⟨outcome, hland⟩ := hlands
      refine ⟨outcome, ?_⟩
      rw [fill_path, addRename, hprojection]
      exact hderived.trans hland
  | some entries =>
      cases hfold : Columns.foldRename? entries new old with
      | none =>
          obtain ⟨outcome, habsorbed⟩ := Layer.rise_rename_projection_none hfold
          refine ⟨outcome, habsorbed.trans ?_⟩
          rw [addRename, hprojection]
          simp only [hfold]
          rw [path_eq, Path.fill_append]
          rfl
      | some folded =>
          obtain ⟨_, hderived⟩ := Layer.rise_rename_extraColumns new old c.derived
          obtain ⟨outcome, hland⟩ := hlands
          refine ⟨outcome, ?_⟩
          rw [fill_path, addRename, hprojection]
          simp only [hfold]
          exact (Layer.rise_rename_projection_some hfold).trans (hderived.trans hland)

theorem rise_projection (c : Clauses) (entries : List String) :
    ∃ outcome, ((Layer.projection entries).frame.fill none).rise .flatSelect 0 below steps
        (c.path target) = .ok (outcome, ((c.addProjection entries).path target).fill below) := by
  rw [path_eq]
  obtain ⟨_, hcondition⟩ := Layer.rise_projection_conditions c.condition
  rw [hcondition]
  cases hprojection : c.projection with
  | none =>
      have hallows : ∀ l ∈ Layer.renames c.renames ++ Layer.extraColumns c.derived,
          Grammar.flatSelect.allows l.kind 1 (Layer.projection entries).kind = true := by
        intro l hl
        rcases List.mem_append.mp hl with hl | hl
        · rw [Layer.kind_of_mem_renames hl]
          rfl
        · rw [Layer.kind_of_mem_extraColumns hl]
          rfl
      obtain ⟨outcome, hland⟩ := rise_lands target _ _ _ (.projection entries) hallows
      refine ⟨outcome, ?_⟩
      rw [addProjection, hprojection, path_eq, Path.fill_append]
      simp only [Layer.path_append, List.append_assoc] at hland
      exact hland
  | some outer =>
      obtain ⟨outcome, habsorbed⟩ := Layer.rise_projection_projection entries outer
      refine ⟨outcome, habsorbed.trans ?_⟩
      rw [addProjection, hprojection, path_eq, Path.fill_append]
      rfl

theorem rise_condition (c : Clauses) (predicate : Formula) :
    ∃ outcome, ((Layer.condition predicate).frame.fill none).rise .flatSelect 0 below steps
        (c.path target) = .ok (outcome, ((c.addCondition predicate).path target).fill below) := by
  rw [path_eq]
  cases hcondition : c.condition with
  | none =>
      have hallows : ∀ l ∈ Layer.renames c.renames ++ (Layer.extraColumns c.derived ++
          Layer.projections c.projection),
          Grammar.flatSelect.allows l.kind 1 (Layer.condition predicate).kind = true := by
        intro l hl
        rcases List.mem_append.mp hl with hl | hl
        · rw [Layer.kind_of_mem_renames hl]
          rfl
        · rcases List.mem_append.mp hl with hl | hl
          · rw [Layer.kind_of_mem_extraColumns hl]
            rfl
          · rw [Layer.kind_of_mem_projections hl]
            rfl
      obtain ⟨outcome, hland⟩ := rise_lands target _ _ _ (.condition predicate) hallows
      refine ⟨outcome, ?_⟩
      rw [addCondition, hcondition, path_eq]
      simp only [Layer.path_append, List.append_assoc] at hland
      exact hland
  | some outer =>
      obtain ⟨outcome, habsorbed⟩ := Layer.rise_condition_condition predicate outer
      refine ⟨outcome, habsorbed.trans ?_⟩
      rw [addCondition, hcondition, path_eq]
      rfl

/-- A derived column that has crossed the predicate. -/
theorem rise_extraColumn_of_condition (c : Clauses) (target : String) (below : Subtree)
    (steps : Nat) (asName source : String)
    (h : ∀ p, c.condition = some p → asName ∉ p.leaves) :
    ∃ c' outcome, c.addDerived asName source = .ok c' ∧
      ((Layer.extraColumn asName source).frame.fill none).rise .flatSelect 0
        ((Layer.path (Layer.conditions c.condition)).fill below) steps
        (Layer.path (Layer.projections c.projection) ++
          (Layer.path (Layer.extraColumns c.derived) ++
            (Layer.path (Layer.renames c.renames) ++ [rootFrame target]))) =
        .ok (outcome, (c'.path target).fill below) := by
  have hread : c.condition.any (fun p => decide (asName ∈ p.leaves)) = false := by
    cases hcondition : c.condition with
    | none => rfl
    | some p => simpa using h p hcondition
  have hallows : ∀ l ∈ Layer.renames c.renames ++ Layer.extraColumns c.derived,
      Grammar.flatSelect.allows l.kind 1 (Layer.extraColumn asName source).kind = true := by
    intro l hl
    rcases List.mem_append.mp hl with hl | hl
    · rw [Layer.kind_of_mem_renames hl]
      rfl
    · rw [Layer.kind_of_mem_extraColumns hl]
      rfl
  have hlands := fun below steps =>
    rise_lands target below steps _ (.extraColumn asName source) hallows
  simp only [Layer.path_append, List.append_assoc] at hlands
  rw [addDerived, hread, if_neg Bool.false_ne_true]
  cases hprojection : c.projection with
  | none =>
      obtain ⟨outcome, hland⟩ :=
        hlands ((Layer.path (Layer.conditions c.condition)).fill below) steps
      refine ⟨_, outcome, rfl, hland.trans ?_⟩
      rw [path_eq, Path.fill_append, Layer.path_extraColumns_concat]
      rfl
  | some entries =>
      have hcross := Layer.rise_extraColumn_projection
        ((Layer.path (Layer.conditions c.condition)).fill below) steps
        (Layer.path (Layer.extraColumns c.derived) ++
          (Layer.path (Layer.renames c.renames) ++ [rootFrame target])) asName source entries
      dsimp only at hcross ⊢
      cases hselect : Columns.selectDerived entries asName with
      | true =>
          rw [hselect, if_pos rfl] at hcross
          obtain ⟨outcome, hland⟩ := hlands (Path.fill
            [(Layer.projection (Columns.withoutDerived entries asName)).frame]
            ((Layer.path (Layer.conditions c.condition)).fill below)) (steps + 1)
          refine ⟨_, outcome, rfl, hcross.trans (hland.trans ?_)⟩
          rw [path_eq, Path.fill_append, Layer.path_extraColumns_concat]
          rfl
      | false =>
          rw [hselect, if_neg Bool.false_ne_true] at hcross
          obtain ⟨outcome, habsorbed⟩ := hcross
          refine ⟨_, outcome, rfl, habsorbed.trans ?_⟩
          rw [path_eq, Path.fill_append]
          rfl

theorem rise_extraColumn (c : Clauses) (asName source : String) :
    match c.addDerived asName source with
    | .ok c' => ∃ outcome, ((Layer.extraColumn asName source).frame.fill none).rise .flatSelect 0
        below steps (c.path target) = .ok (outcome, (c'.path target).fill below)
    | .error cause => ((Layer.extraColumn asName source).frame.fill none).rise .flatSelect 0
        below steps (c.path target) = .error cause := by
  rw [path_eq]
  cases hcondition : c.condition with
  | none =>
      obtain ⟨c', outcome, hadd, hrise⟩ := c.rise_extraColumn_of_condition target
        below steps asName source (by simp [hcondition])
      rw [hcondition] at hrise
      rw [hadd]
      exact ⟨outcome, hrise⟩
  | some p =>
      have hcross := Layer.rise_extraColumn_condition below steps
        (Layer.path (Layer.projections c.projection) ++
          (Layer.path (Layer.extraColumns c.derived) ++
            (Layer.path (Layer.renames c.renames) ++ [rootFrame target]))) asName source p
      by_cases hmem : asName ∈ p.leaves
      · rw [if_pos hmem] at hcross
        simp only [addDerived, hcondition, Option.any_some, hmem, decide_true, if_true]
        exact hcross
      · rw [if_neg hmem] at hcross
        obtain ⟨c', outcome, hadd, hrise⟩ := c.rise_extraColumn_of_condition target
          below (steps + 1) asName source
          (by rw [hcondition]; rintro _ ⟨⟩; exact hmem)
        rw [hcondition] at hrise
        rw [hadd]
        exact ⟨outcome, hcross.trans hrise⟩

/-- Taking a layer up the clauses adds it to them, or fails as that fails. -/
theorem rise_add (c : Clauses) (target : String) (below : Subtree) (steps : Nat) (layer : Layer) :
    match c.add layer with
    | .ok c' => ∃ outcome, (layer.frame.fill none).rise .flatSelect 0 below steps (c.path target) =
        .ok (outcome, (c'.path target).fill below)
    | .error cause => (layer.frame.fill none).rise .flatSelect 0 below steps (c.path target) =
        .error cause := by
  cases layer with
  | rename new old => exact c.rise_rename new old
  | extraColumn asName source => exact c.rise_extraColumn asName source
  | projection entries => exact c.rise_projection entries
  | condition predicate => exact c.rise_condition predicate

end Clauses

end FlatSelect
