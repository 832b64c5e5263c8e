import FlatSelect.Proofs.Stack

/-!
# Normalization is a fold over the layers

Lifting first deviations works its way down a query: the clauses found so far stand above, in the
order that the grammar wants, and below them is what has not been looked at. A layer that is next
below the clauses is either legal there, so that it is one more clause as it stands, or it is the
first deviation, and lifting it adds it to the clauses. Then the layers of the left branch of a join
come up, one after the other, and those of the right branch.

So a normalization comes to what `Query.flatten` finds in one pass (`Query.settles`), with a lift
for a layer at most.
-/

namespace FlatSelect

/-- The kinds at the root of a query. -/
abbrev queryRoots : KindSet :=
  .ofList [.assign]

namespace Layer

variable {below : Subtree} {steps : Nat} {above : Path} {target : String}

theorem deviation?_parameter (layer : Layer) :
    Subtree.deviationIn? .flatSelect layer.kind 0 layer.frame.before = none := by
  cases layer with
  | rename | extraColumn | projection => rfl
  | condition predicate =>
      rw [frame, Subtree.deviationIn?, parameter]
      exact Option.or_eq_none_iff.mpr ⟨predicate.deviation?_bare, rfl⟩

/-- Layers in the order of the clauses leave the way to their foot clear. -/
theorem clear_path (layers : List Layer)
    (h : layers.Pairwise fun outer inner =>
      Grammar.flatSelect.allows outer.kind 1 inner.kind = true) :
    (path layers ++ [Clauses.rootFrame target]).Clear .flatSelect queryRoots := by
  induction layers using List.reverseRecOn with
  | nil => exact ⟨rfl, rfl, trivial⟩
  | append_singleton outer inner ih =>
      obtain ⟨houter, _, hinner⟩ := List.pairwise_append.mp h
      rw [path_concat, List.cons_append]
      refine ⟨?_, inner.deviation?_parameter, ih houter⟩
      cases outer using List.reverseRecOn with
      | nil => cases inner <;> rfl
      | append_singleton outer last =>
          rw [path_concat]
          exact hinner last (by simp) inner (by simp)

theorem clearAfter_path (layers : List Layer) :
    (path layers ++ [Clauses.rootFrame target]).ClearAfter .flatSelect := by
  induction layers using List.reverseRecOn with
  | nil => exact ⟨rfl, trivial⟩
  | append_singleton outer inner ih =>
      rw [path_concat, List.cons_append]
      exact ⟨rfl, ih⟩

/-- Relations and joins may stand below any layers. -/
theorem expected_input (layers : List Layer) {kind : Kind} (h : kind.isInput = true) :
    ((path layers ++ [Clauses.rootFrame target]).expected .flatSelect queryRoots).contains kind =
      true := by
  cases layers using List.reverseRecOn with
  | nil => cases kind <;> first | rfl | cases h
  | append_singleton outer last =>
      rw [path_concat]
      cases last <;> cases kind <;> first | rfl | cases h

/-- A layer that is not legal at the foot of a path is taken up the path. -/
theorem lift_eq_rise {layer : Layer} {f : Frame}
    (h : Grammar.flatSelect.allows f.kind f.slot layer.kind = false) :
    (layer.frame.fill (some below)).lift .flatSelect 0 (f :: above) =
      (layer.frame.fill none).rise .flatSelect 0 below 0 (f :: above) := by
  rw [Subtree.lift, Frame.fill_kind, frame_kind, h, if_neg (by decide),
    if_pos (by cases layer <;> rfl)]
  rfl

/-- A layer that is not legal where it stands is lifted. -/
theorem liftsTo {layer : Layer} {path : Path} {added : Except Error Clauses}
    {whole : Clauses → Subtree} (hclear : path.Clear .flatSelect queryRoots) (hpath : path ≠ [])
    (hlayer : (path.expected .flatSelect queryRoots).contains layer.kind = false)
    (hrise : match added with
      | .ok c => ∃ outcome, (layer.frame.fill none).rise .flatSelect 0 below 0 path =
          .ok (outcome, whole c)
      | .error cause => (layer.frame.fill none).rise .flatSelect 0 below 0 path = .error cause) :
    (path.fill (layer.frame.fill (some below))).LiftsTo .flatSelect queryRoots
      (added.map whole) := by
  refine ⟨path, _, rfl, hclear, hlayer, ?_⟩
  obtain ⟨f, above, rfl⟩ := List.exists_cons_of_ne_nil hpath
  rw [lift_eq_rise hlayer]
  cases added with
  | error cause =>
      rw [hrise]
      rfl
  | ok c =>
      obtain ⟨outcome, hok⟩ := hrise
      rw [hok]
      rfl

end Layer

namespace Clauses

variable {below : Subtree} {target : String}

theorem pairwise_layers (c : Clauses) : c.layers.Pairwise fun outer inner =>
    Grammar.flatSelect.allows outer.kind 1 inner.kind = true := by
  have hone : ∀ {α : Type} (f : α → Layer) (o : Option α) (P : Layer → Layer → Prop),
      (o.toList.map f).Pairwise P := by
    intro α f o P
    cases o <;> simp
  rw [layers, List.pairwise_append, List.pairwise_append, List.pairwise_append]
  refine ⟨⟨⟨?_, ?_, ?_⟩, hone .., ?_⟩, hone .., ?_⟩
  · apply List.pairwise_iff_forall_sublist.mpr
    intro outer inner h
    rw [Layer.kind_of_mem_renames (h.subset (by simp)),
      Layer.kind_of_mem_renames (h.subset (by simp))]
    rfl
  · apply List.pairwise_iff_forall_sublist.mpr
    intro outer inner h
    rw [Layer.kind_of_mem_extraColumns (h.subset (by simp)),
      Layer.kind_of_mem_extraColumns (h.subset (by simp))]
    rfl
  · intro outer houter inner hinner
    rw [Layer.kind_of_mem_renames houter, Layer.kind_of_mem_extraColumns hinner]
    rfl
  · intro outer houter inner hinner
    rw [Layer.kind_of_mem_projections hinner]
    rcases List.mem_append.mp houter with houter | houter
    · rw [Layer.kind_of_mem_renames houter]
      rfl
    · rw [Layer.kind_of_mem_extraColumns houter]
      rfl
  · intro outer houter inner hinner
    rw [Layer.kind_of_mem_conditions hinner]
    rcases List.mem_append.mp houter with houter | houter
    · rcases List.mem_append.mp houter with houter | houter
      · rw [Layer.kind_of_mem_renames houter]
        rfl
      · rw [Layer.kind_of_mem_extraColumns houter]
        rfl
    · rw [Layer.kind_of_mem_projections houter]
      rfl

theorem clear_path (c : Clauses) : (c.path target).Clear .flatSelect queryRoots :=
  Layer.clear_path _ c.pairwise_layers

/-- A layer that is legal below the clauses is one of them as it stands. -/
theorem add_of_legal (c : Clauses) (target : String) (below : Subtree) (layer : Layer)
    (h : ((c.path target).expected .flatSelect queryRoots).contains layer.kind = true) :
    ∃ c', c.add layer = .ok c' ∧
      (c'.path target).fill below = (c.path target).fill (layer.frame.fill (some below)) := by
  have hrise := c.rise_add target below 0 layer
  obtain ⟨f, above, hpath⟩ : ∃ f above, c.path target = f :: above :=
    List.exists_cons_of_ne_nil (by simp [path])
  rw [hpath] at h hrise ⊢
  obtain ⟨outcome, hlands⟩ := @Layer.rise_lands .flatSelect below 0 above _ _ h
  rw [hlands] at hrise
  cases hadd : c.add layer with
  | error cause =>
      rw [hadd] at hrise
      cases hrise
  | ok c' =>
      rw [hadd] at hrise
      obtain ⟨_, hwhole⟩ := hrise
      exact ⟨c', rfl, (congrArg Prod.snd (Except.ok.inj hwhole)).symm⟩

/-- What is next below the clauses, with `n` lifts to spend on what is below that. -/
theorem abreast_layers {below' : Subtree} {finish finish' : Clauses → Except Error Subtree}
    {n : Nat} (hbelow : ∀ c : Clauses, ((c.path target).fill below).Abreast .flatSelect queryRoots
      ((c.path target).fill below') n (finish c) (finish' c)) (layers : List Layer) (c : Clauses) :
    ((c.path target).fill ((Layer.path layers).fill below)).Abreast .flatSelect queryRoots
      ((c.path target).fill ((Layer.path layers).fill below')) (layers.length + n)
      (layers.foldlM add c >>= finish) (layers.foldlM add c >>= finish') := by
  induction layers generalizing c with
  | nil => exact (hbelow c).mono (by simp)
  | cons layer rest ih =>
      rw [Layer.path_cons, Path.fill_append, Path.fill_append, List.foldlM_cons, bind_assoc,
        bind_assoc, List.length_cons]
      change ((c.path target).fill (layer.frame.fill (some _))).Abreast _ _
        ((c.path target).fill (layer.frame.fill (some _))) _ _ _
      cases hlegal : ((c.path target).expected .flatSelect queryRoots).contains layer.kind with
      | true =>
          -- No lift is needed, and the pass leaves the layer where it is.
          obtain ⟨c', hadd, hfill⟩ := c.add_of_legal target
            ((Layer.path rest).fill below) layer hlegal
          obtain ⟨c'', hadd', hfill'⟩ := c.add_of_legal target
            ((Layer.path rest).fill below') layer hlegal
          obtain rfl : c'' = c' := Except.ok.inj (hadd'.symm.trans hadd)
          rw [hadd, ← hfill, ← hfill']
          exact (ih c'').mono (m := rest.length + 1 + n) (by omega)
      | false =>
          have hlifts := fun below => Layer.liftsTo c.clear_path (by simp [path]) hlegal
            (c.rise_add target below 0 layer)
          have hadded : ∀ c₁ c₂, c.add layer = .ok c₁ → c.add layer = .ok c₂ → c₂ = c₁ := by
            intro c₁ c₂ h₁ h₂
            exact Except.ok.inj (h₂.symm.trans h₁)
          refine (Subtree.abreast_of_lifted (FailAlike.refl _) (hlifts _) (hlifts _) ?_).mono
            (n := rest.length + n + 1) (by omega)
          intro c₁ c₂ h₁ h₂
          obtain rfl := hadded c₁ c₂ h₁ h₂
          exact ih c₂

end Clauses

/-! ### Join branches -/

namespace Branch

/-- A branch with an alias, without what it stands on. -/
def frame (asName : String) : Frame :=
  ⟨0, .renameAll, none, [some (Expr.name asName).bare], []⟩

theorem branchAlias?_bare (b : Branch) : b.toExpr.bare.branchAlias? = some b.asName := by
  cases b <;> rfl

theorem deviation?_stripped (b : Branch) :
    b.stripped.toExpr.bare.deviation? .flatSelect Grammar.branches = none := by
  cases b with
  | bare => rfl
  | aliased asName layers relation => cases relation <;> rfl

end Branch

/-- A join without one of its branches. The wildcards stand for all columns of the branch that is
there, and if that is the left one, nothing is wrong with it. -/
structure JoinFrame (wildcards : List String) where
  frame : Frame
  kind_eq : frame.kind = .input2
  slot_lt : frame.slot < 2
  wildcards_eq : ∀ s, (frame.fill (some s)).siblingWildcards frame.slot = wildcards
  clear : Subtree.deviationIn? .flatSelect .input2 0 frame.before = none

namespace JoinFrame

def beforeRight (right : Branch) : JoinFrame [Columns.qualify right.asName "*"] where
  frame := ⟨0, .input2, none, [], [some right.toExpr.bare]⟩
  kind_eq := rfl
  slot_lt := Nat.zero_lt_two
  wildcards_eq s := by
    simp [Subtree.siblingWildcards, Frame.slot, List.zipIdx_cons, right.branchAlias?_bare]
  clear := rfl

def afterLeft (left : Branch) : JoinFrame [Columns.qualify left.asName "*"] where
  frame := ⟨0, .input2, none, [some left.stripped.toExpr.bare], []⟩
  kind_eq := rfl
  slot_lt := Nat.one_lt_two
  wildcards_eq s := by
    simp [Subtree.siblingWildcards, Frame.slot, List.zipIdx_cons, Branch.branchAlias?_bare]
    cases left <;> rfl
  clear := by
    rw [Subtree.deviationIn?]
    exact Option.or_eq_none_iff.mpr ⟨left.deviation?_stripped, rfl⟩

end JoinFrame

namespace Layer

/-- A layer whose columns say which branch they are of. -/
def saying (asName : String) : Layer → Layer
  | rename new old => .rename (Columns.qualify asName new) (Columns.qualify asName old)
  | extraColumn asName source => .extraColumn asName source
  | projection entries => .projection (entries.map (Columns.qualify asName))
  | condition predicate => .condition (predicate.map fun text =>
    if Text.isColumnReference text then Columns.qualify asName text else text)

/-- A layer that lets through what some wildcards stand for. -/
def widened (wildcards : List String) : Layer → Layer
  | projection entries => .projection (entries ++ wildcards)
  | layer => layer

variable {below : Subtree} {steps : Nat} {above : Path} {layer : Layer}

/-- A layer of a branch with an alias, as it comes out of the join. A derived column does not. -/
def leaving (asName : String) (wildcards : List String) : Layer → Except Error Layer
  | extraColumn _ _ => .error (.nonCanonicalizable (.noTransfer .extraColumn .renameAll))
  | layer => .ok ((layer.saying asName).widened wildcards)

theorem qualify_eq (asName other : String) (layer : Layer) :
    layer.qualify asName other = layer.leaving asName [Columns.qualify other "*"] := by
  cases layer <;> rfl

@[simp] theorem kind_saying (asName : String) (layer : Layer) :
    (layer.saying asName).kind = layer.kind := by
  cases layer <;> rfl

/-- A layer leaves a branch with an alias. -/
theorem rise_branch (hkind : layer.kind ≠ .extraColumn) (asName : String) :
    (layer.frame.fill none).rise .flatSelect 0 below steps (Branch.frame asName :: above) =
      ((layer.saying asName).frame.fill none).rise .flatSelect 0
        (Path.fill [Branch.frame asName] below) (steps + 1) above := by
  cases layer with
  | extraColumn => exact absurd rfl hkind
  | rename new old => exact Subtree.rise_rises .qualifyRename _ _ rfl rfl rfl
  | projection entries => exact Subtree.rise_rises .qualifyProjection _ _ rfl rfl rfl
  | condition predicate =>
      let names := fun text =>
        if Text.isColumnReference text then Columns.qualify asName text else text
      have hmap : predicate.toExpr.bare.mapNames (fun text =>
          if Text.isColumnReference text then some (Columns.qualify asName text) else none) =
          (predicate.map names).toExpr.bare := by
        have hif : ∀ text, (if Text.isColumnReference text then
            some (Columns.qualify asName text) else none).getD text = names text := by
          intro text
          simp only [names]
          split <;> rfl
        simp only [Formula.bare_mapNames, hif]
      refine Subtree.rise_rises .qualifyCondition
        ((condition (predicate.map names)).frame.fill none)
        ((Branch.frame asName).fill (some below)) rfl rfl ?_
      exact congrArg (fun top => Except.ok (Crossed.rises (.node 0 .condition none
        [some top, none]) ((Branch.frame asName).fill (some below)))) hmap

end Layer

namespace JoinFrame

variable {wildcards : List String} (j : JoinFrame wildcards) {below : Subtree} {steps : Nat}
  {above : Path} {layer : Layer}

theorem allows_eq (layer : Layer) :
    Grammar.flatSelect.allows j.frame.kind j.frame.slot layer.kind = false := by
  have hslot := j.slot_lt
  rw [j.kind_eq]
  generalize j.frame.slot = slot at hslot
  obtain rfl | rfl : slot = 0 ∨ slot = 1 := by omega
  · cases layer <;> rfl
  · cases layer <;> rfl

/-- A layer leaves the join. -/
theorem rise_join (hkind : layer.kind ≠ .extraColumn) :
    (layer.frame.fill none).rise .flatSelect 0 below steps (j.frame :: above) =
      ((layer.widened wildcards).frame.fill none).rise .flatSelect 0
        (Path.fill [j.frame] below) (steps + 1) above := by
  have hrule : Transfer.between? layer.kind j.frame.kind =
      Transfer.between? layer.kind .input2 := by rw [j.kind_eq]
  have hallows := j.allows_eq layer
  cases layer with
  | extraColumn => exact absurd rfl hkind
  | rename new old => exact Subtree.rise_rises .pass _ _ hallows hrule rfl
  | condition predicate => exact Subtree.rise_rises .pass _ _ hallows hrule rfl
  | projection entries =>
      refine Subtree.rise_rises .widenProjection _ _ hallows hrule ?_
      exact congrArg (fun wildcards => Except.ok (Crossed.rises
        ((Layer.projection (entries ++ wildcards)).frame.fill none)
        (j.frame.fill (some below)))) (j.wildcards_eq below)

/-- A layer leaves its branch and the join. -/
theorem rise_leaving (asName : String) (layer : Layer) :
    match layer.leaving asName wildcards with
    | .ok left => (layer.frame.fill none).rise .flatSelect 0 below 0
        (Branch.frame asName :: j.frame :: above) =
      (left.frame.fill none).rise .flatSelect 0
        (Path.fill [Branch.frame asName, j.frame] below) 2 above
    | .error cause => (layer.frame.fill none).rise .flatSelect 0 below 0
        (Branch.frame asName :: j.frame :: above) = .error cause := by
  have hrise : layer.kind ≠ .extraColumn → (layer.frame.fill none).rise .flatSelect 0 below 0
      (Branch.frame asName :: j.frame :: above) =
        (((layer.saying asName).widened wildcards).frame.fill none).rise .flatSelect 0
          (Path.fill [Branch.frame asName, j.frame] below) 2 above := by
    intro hkind
    rw [Layer.rise_branch hkind, j.rise_join (by rwa [Layer.kind_saying])]
    rfl
  cases layer with
  | extraColumn asName' source => exact Subtree.rise_no_rule rfl rfl
  | rename new old => exact hrise nofun
  | projection entries => exact hrise nofun
  | condition predicate => exact hrise nofun

/-- The way from what a branch stands on up to the root. -/
def path (target asName : String) (c : Clauses) : Path :=
  Branch.frame asName :: j.frame :: c.path target

theorem clear_path (target asName : String) (c : Clauses) :
    (j.path target asName c).Clear .flatSelect queryRoots := by
  refine ⟨?_, rfl, ?_, ?_, c.clear_path⟩
  · have hslot := j.slot_lt
    rw [Path.expected, j.kind_eq]
    generalize j.frame.slot = slot at hslot
    obtain rfl | rfl : slot = 0 ∨ slot = 1 := by omega
    · rfl
    · rfl
  · rw [j.kind_eq]
    exact Layer.expected_input c.layers rfl
  · rw [j.kind_eq]
    exact j.clear

end JoinFrame

namespace Clauses

/-- One more layer of a join branch below the clauses. -/
def addLeaving (asName : String) (wildcards : List String) (c : Clauses) (layer : Layer) :
    Except Error Clauses :=
  match layer.leaving asName wildcards with
  | .ok left => c.add left
  | .error cause => .error cause

/-- The layers of a join branch below the clauses, where the wildcards stand for all columns of the
branch beside it. -/
def addBranchBeside (wildcards : List String) (c : Clauses) : Branch → Except Error Clauses
  | .bare _ => .ok c
  | .aliased asName layers _ => layers.foldlM (addLeaving asName wildcards) c

theorem addBranch_eq (other : String) (c : Clauses) (branch : Branch) :
    c.addBranch other branch = c.addBranchBeside [Columns.qualify other "*"] branch := by
  cases branch with
  | bare relation => rfl
  | aliased asName layers relation =>
      have hadd : addQualified asName other =
          addLeaving asName [Columns.qualify other "*"] := by
        funext c layer
        cases hleaving : layer.leaving asName [Columns.qualify other "*"] <;>
          simp only [addQualified, addLeaving, Layer.qualify_eq, hleaving]
      rw [addBranch, addBranchBeside, hadd]

/-- Whether a layer of a branch can be added depends on the layer alone. -/
theorem failAlike_addLeaving (asName : String) (wildcards wildcards' : List String)
    (c c' : Clauses) (layer : Layer) :
    FailAlike (c.addLeaving asName wildcards layer) (c'.addLeaving asName wildcards' layer) := by
  cases layer with
  | extraColumn => exact FailAlike.refl (.error _)
  | rename | projection | condition => trivial

end Clauses

namespace JoinFrame

variable {wildcards : List String} (j : JoinFrame wildcards) {below : Subtree}

theorem rise_addLeaving (below : Subtree) (target asName : String) (c : Clauses) (layer : Layer) :
    match c.addLeaving asName wildcards layer with
    | .ok c' => ∃ outcome, (layer.frame.fill none).rise .flatSelect 0 below 0
        (j.path target asName c) = .ok (outcome, (j.path target asName c').fill below)
    | .error cause => (layer.frame.fill none).rise .flatSelect 0 below 0
        (j.path target asName c) = .error cause := by
  have hbranch := @rise_leaving _ j below (c.path target) asName layer
  rw [Clauses.addLeaving]
  cases hleaving : layer.leaving asName wildcards with
  | error cause =>
      rw [hleaving] at hbranch
      exact hbranch
  | ok left =>
      rw [hleaving] at hbranch
      have hrise := c.rise_add target (Path.fill [Branch.frame asName, j.frame] below) 2 left
      rw [path, hbranch]
      exact hrise

/-- The outermost layer of a branch is added to the clauses. -/
theorem liftsTo (target asName : String) (c : Clauses) (layer : Layer) (rest : List Layer) :
    ((j.path target asName c).fill ((Layer.path (layer :: rest)).fill below)).LiftsTo .flatSelect
      queryRoots ((c.addLeaving asName wildcards layer).map fun c =>
        (j.path target asName c).fill ((Layer.path rest).fill below)) := by
  rw [Layer.path_cons, Path.fill_append]
  have hlayer : ((j.path target asName c).expected .flatSelect queryRoots).contains
      layer.kind = false := by
    cases layer <;> rfl
  exact Layer.liftsTo (j.clear_path target asName c) (by simp [path]) hlayer
    (j.rise_addLeaving ((Layer.path rest).fill below) target asName c layer)

end JoinFrame

namespace Query

variable {target : String}

theorem withClauses_bare (q : Query) (c : Clauses) : (q.withClauses c).toExpr.bare =
    (c.path q.target).fill q.source.stripped.toExpr.bare :=
  Clauses.bare_assign q.target c _

/-- A flat select has no deviation. -/
theorem deviation?_withClauses (q : Query) (c : Clauses) :
    (q.withClauses c).toExpr.bare.deviation? .flatSelect queryRoots = none := by
  rw [withClauses_bare]
  refine Subtree.deviation?_fill_of_none c.clear_path (Layer.clearAfter_path _) ?_
  cases q.source with
  | table relation =>
      have hkind := @Layer.expected_input q.target c.layers .input1 rfl
      change Subtree.deviation? _ _ (.node 0 .input1 none _) = none
      rw [Subtree.deviation?, Clauses.path, if_pos hkind]
      rfl
  | join left right =>
      have hkind := @Layer.expected_input q.target c.layers .input2 rfl
      have hleft := left.deviation?_stripped
      have hright := right.deviation?_stripped
      change Subtree.deviation? _ _ (.node 0 .input2 none
        [some left.stripped.toExpr.bare, some right.stripped.toExpr.bare]) = none
      rw [Subtree.deviation?, Clauses.path, if_pos hkind]
      refine Option.or_eq_none_iff.mpr ⟨hleft, ?_⟩
      exact Option.or_eq_none_iff.mpr ⟨hright, rfl⟩

/-- The layers of one branch, those of the other not being looked at. -/
theorem abreast_branch {wildcards wildcards' : List String} (j : JoinFrame wildcards)
    (j' : JoinFrame wildcards') (branch : Branch) {finish finish' : Clauses → Except Error Subtree}
    {n : Nat}
    (hstripped : ∀ c c' : Clauses,
      ((c.path target).fill (j.frame.fill (some branch.stripped.toExpr.bare))).Abreast
        .flatSelect queryRoots
        ((c'.path target).fill (j'.frame.fill (some branch.stripped.toExpr.bare))) n
        (finish c) (finish' c'))
    (c c' : Clauses) : ((c.path target).fill (j.frame.fill (some branch.toExpr.bare))).Abreast
      .flatSelect queryRoots ((c'.path target).fill (j'.frame.fill (some branch.toExpr.bare)))
      (branch.layers.length + n) (c.addBranchBeside wildcards branch >>= finish)
      (c'.addBranchBeside wildcards' branch >>= finish') := by
  cases branch with
  | bare relation => exact (hstripped c c').mono (by simp [Branch.layers])
  | aliased asName layers relation =>
      have hlayers := Subtree.abreast_foldlM (Clauses.addLeaving asName wildcards)
        (Clauses.addLeaving asName wildcards')
        (fun c rest =>
          (j.path target asName c).fill ((Layer.path rest).fill relation.toExpr.bare))
        (fun c rest =>
          (j'.path target asName c).fill ((Layer.path rest).fill relation.toExpr.bare)) layers
        (fun c c' layer _ rest => ⟨Clauses.failAlike_addLeaving _ _ _ c c' layer,
          j.liftsTo target asName c layer rest, j'.liftsTo target asName c' layer rest⟩)
        hstripped c c'
      rw [← Layer.bare_stack] at hlayers
      exact hlayers

/-- The layers of the source, with the clauses of the query above. -/
theorem abreast_source (q : Query) (c c' : Clauses) :
    ((c.path q.target).fill q.source.toExpr.bare).Abreast .flatSelect queryRoots
      ((c'.path q.target).fill q.source.toExpr.bare) q.source.layerCount
      (c.addSource q.source >>= fun c => .ok (q.withClauses c).toExpr.bare)
      (c'.addSource q.source >>= fun c => .ok (q.withClauses c).toExpr.bare) := by
  have hflat : ∀ c c' : Clauses, ((c.path q.target).fill q.source.stripped.toExpr.bare).Abreast
      .flatSelect queryRoots ((c'.path q.target).fill q.source.stripped.toExpr.bare) 0
      (.ok (q.withClauses c).toExpr.bare) (.ok (q.withClauses c').toExpr.bare) := by
    intro c c'
    rw [← q.withClauses_bare, ← q.withClauses_bare]
    exact Subtree.abreast_of_canonical (q.deviation?_withClauses c) (q.deviation?_withClauses c')
  cases hsource : q.source with
  | table relation =>
      rw [hsource] at hflat
      exact hflat c c'
  | join left right =>
      rw [hsource] at hflat
      have hright := fun c c' =>
        abreast_branch (.afterLeft left) (.afterLeft left) right hflat c c'
      have hleft := abreast_branch (.beforeRight right) (.beforeRight right) left hright c c'
      simp only [Clauses.addSource, bind_assoc, Clauses.addBranch_eq]
      exact hleft

/-- Lifting first deviations of a query ends in the flat select of its clauses. -/
theorem settles (q : Query) : q.toExpr.bare.Settles .flatSelect queryRoots q.layerCount
    (q.flatten.map (·.toExpr.bare)) := by
  have hlayers := (Clauses.abreast_layers (fun c => q.abreast_source c c) q.layers .empty).settles
  have hbare : q.toExpr.bare = (Clauses.empty.path q.target).fill
      ((Layer.path q.layers).fill q.source.toExpr.bare) := by
    rw [← Layer.bare_stack]
    rfl
  have hresult : q.flatten.map (·.toExpr.bare) = q.layers.foldlM Clauses.add .empty >>= fun c =>
      c.addSource q.source >>= fun c => .ok (q.withClauses c).toExpr.bare := by
    rw [flatten, clauses]
    cases q.layers.foldlM Clauses.add .empty with
    | error => rfl
    | ok c =>
        change ((c.addSource q.source).map q.withClauses).map (·.toExpr.bare) =
          c.addSource q.source >>= _
        cases c.addSource q.source <;> rfl
  rw [hbare, hresult]
  exact hlayers

end Query

/-! ### Trees of queries -/

theorem Expr.check_condition {p operand : Expr} (hp : p.check = .ok ())
    (h : operand.check = .ok ()) : (condition p operand).check = .ok () := by
  simp only [condition, op, check, checkAll, h, hp]
  rfl

theorem Expr.check_input2 {left right : Expr} (hleft : left.check = .ok ())
    (hright : right.check = .ok ()) : (input2 left right).check = .ok () := by
  simp only [input2, op, check, checkAll, hleft, hright]
  rfl

theorem Expr.check_assign (target : String) {body : Expr} (h : body.check = .ok ()) :
    (assign target body).check = .ok () := by
  simp only [assign, op, check, checkAll, h]
  rfl

theorem Layer.check_wrap (layer : Layer) {e : Expr} (h : e.check = .ok ()) :
    (layer.wrap e).check = .ok () := by
  cases layer with
  | rename | extraColumn | projection =>
      simp only [wrap, Expr.rename, Expr.extraColumn, Expr.projection, Expr.op, Expr.check,
        Expr.checkAll, h]
      rfl
  | condition predicate => exact Expr.check_condition predicate.check_toExpr h

theorem Layer.check_stack (layers : List Layer) {e : Expr} (h : e.check = .ok ()) :
    (stack layers e).check = .ok () := by
  induction layers with
  | nil => exact h
  | cons outer inner ih => exact outer.check_wrap ih

theorem Branch.check_toExpr (b : Branch) : b.toExpr.check = .ok () := by
  cases b with
  | bare relation => rfl
  | aliased asName layers relation =>
      have hstored : relation.toExpr.check = .ok () := by cases relation <;> rfl
      have hvalue : Expr.checkRelation .renameAll
          [.name asName, Layer.stack layers relation.toExpr] = .ok () := by
        cases layers with
        | nil => cases relation <;> rfl
        | cons outer inner => cases outer <;> rfl
      simp only [toExpr, Expr.renameAll, Expr.op, Expr.check, Expr.checkAll,
        Layer.check_stack layers hstored, hvalue]
      rfl

theorem Source.check_toExpr (source : Source) : source.toExpr.check = .ok () := by
  cases source with
  | table relation => rfl
  | join left right => exact Expr.check_input2 left.check_toExpr right.check_toExpr

namespace Query

theorem check_toExpr (q : Query) : q.toExpr.check = .ok () :=
  Expr.check_assign q.target (Layer.check_stack q.layers q.source.check_toExpr)

theorem exists_tree (q : Query) : ∃ t, Tree.ofExpr q.toExpr = .ok t := by
  rw [Tree.ofExpr, q.check_toExpr]
  exact ⟨_, rfl⟩

/-- What a normalization makes of a query, in terms of trees that bear it. -/
theorem normalize_eq_flatten {q : Query} {budget : Nat} {t : Tree} (ht : t.Bears q.toExpr.bare)
    (hbudget : q.layerCount ≤ budget) :
    match q.flatten with
    | .ok flat => ∃ tally flatTree, Tree.ofExpr flat.toExpr = .ok flatTree ∧
      Edit.normalize .flatSelect queryRoots budget t = .ok tally flatTree
    | .error cause => Edit.normalize .flatSelect queryRoots budget t = .error cause t := by
  have hsettles := q.settles
  cases hflatten : q.flatten with
  | error cause =>
      rw [hflatten] at hsettles
      exact Edit.normalize_of_settles hsettles ht hbudget
  | ok flat =>
      rw [hflatten] at hsettles
      obtain ⟨tally, last, hrun, hbears⟩ := Edit.normalize_of_settles hsettles ht hbudget
      exact ⟨tally, last.compact, hbears.ofExpr_eq flat.check_toExpr, hrun⟩

/-- A normalization that succeeds makes the flat select of a query, whatever its budget. -/
theorem flatten_of_normalize {q : Query} {budget : Nat} {t flatTree : Tree} {tally : Tally}
    (ht : t.Bears q.toExpr.bare)
    (hrun : Edit.normalize .flatSelect queryRoots budget t = .ok tally flatTree) :
    ∃ flat, q.flatten = .ok flat ∧ Tree.ofExpr flat.toExpr = .ok flatTree := by
  obtain ⟨whole, last, hresult, rfl, hbears⟩ := Edit.settles_of_normalize q.settles ht hrun
  cases hflatten : q.flatten with
  | error cause =>
      rw [hflatten] at hresult
      cases hresult
  | ok flat =>
      rw [hflatten] at hresult
      cases hresult
      exact ⟨flat, rfl, hbears.ofExpr_eq flat.check_toExpr⟩

/-- Every query makes sense. With lifts enough for its layers, its normalization gives the tree of
the flat select that one pass over the layers finds. Where that pass fails, the normalization fails
with the same error and leaves the tree as it was. -/
theorem normalize_is_fold (q : Query) (budget : Nat) (hbudget : q.layerCount ≤ budget) :
    ∃ t, Tree.ofExpr q.toExpr = .ok t ∧
      match q.flatten with
      | .ok flat => ∃ tally flatTree, Tree.ofExpr flat.toExpr = .ok flatTree ∧
        Edit.normalize .flatSelect queryRoots budget t = .ok tally flatTree
      | .error cause => Edit.normalize .flatSelect queryRoots budget t = .error cause t := by
  obtain ⟨t, ht⟩ := q.exists_tree
  exact ⟨t, ht, normalize_eq_flatten (Tree.bears_of_ofExpr ht) hbudget⟩

/-- A join whose left branch has layers, below a rename of a column of the right branch. -/
def exampleJoin : Query where
  target := "V"
  layers := [.rename "x" "B.b"]
  source := .join
    (.aliased "A" [.projection ["a", "k"], .rename "a" "b"] (.name "r")) (.bare "B")

/-- What the join comes to. -/
def exampleFlat : Query where
  target := "V"
  layers := [.rename "x" "B.b", .rename "A.a" "A.b", .projection ["A.b", "A.k", "B.*"]]
  source := .join (.aliased "A" [] (.name "r")) (.bare "B")

theorem normalize_is_fold_join :
    exampleJoin.layerCount ≤ 3 ∧ ∃ t, Tree.ofExpr exampleJoin.toExpr = .ok t ∧
      ∃ tally flatTree, Tree.ofExpr exampleFlat.toExpr = .ok flatTree ∧
        Edit.normalize .flatSelect queryRoots 3 t = .ok tally flatTree := by
  have hbudget : exampleJoin.layerCount ≤ 3 := by decide
  have hflatten : exampleJoin.flatten = .ok exampleFlat := by rfl
  have hfold := normalize_is_fold exampleJoin 3 hbudget
  rw [hflatten] at hfold
  exact ⟨hbudget, hfold⟩

end Query

end FlatSelect
