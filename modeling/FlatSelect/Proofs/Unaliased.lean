import FlatSelect.Proofs.Flattening

/-!
# Branches without an alias

A branch of a join that is no more than the name of its relation goes by that name. So one would
expect of a branch that has layers over a name, but no alias, that it goes by that name too, and
that it normalizes as it does with its own name for its alias. It does not. What makes the columns
of a layer say which branch they are of is the alias that the layer crosses (`Layer.rise_branch`).
Where there is none, the layer comes into the query as it is (`JoinFrame.rise_join`), and a
projection of the other branch may take its columns away (`UnaliasedJoin.normalize_loses_column`).
And as long as there are layers on the name, the branch goes by no name, so no wildcard stands for
its columns.

Still the two normalizations go side by side, with and without the alias, and both succeed or fail
(`UnaliasedJoin.normalize_beside_aliased`). What they come to is the same if the columns say
themselves which relation they are of, and if no wildcard is missed.
-/

namespace FlatSelect

/-- Layers over a join, one branch of which has layers over a stored relation and no alias. -/
structure UnaliasedJoin where
  target : String
  /-- The layers over the join. -/
  layers : List Layer
  relation : String
  /-- The layers of the branch without an alias. -/
  inner : List Layer
  other : Branch
  onLeft : Bool

namespace UnaliasedJoin

/-- The branch without an alias. -/
def branch (q : UnaliasedJoin) : Expr :=
  Layer.stack q.inner (.name q.relation)

def joined (q : UnaliasedJoin) : Expr :=
  if q.onLeft then .input2 q.branch q.other.toExpr else .input2 q.other.toExpr q.branch

def toExpr (q : UnaliasedJoin) : Expr :=
  .assign q.target (Layer.stack q.layers q.joined)

/-- The join with another branch in place of the one without an alias. -/
def source (q : UnaliasedJoin) (branch : Branch) : Source :=
  if q.onLeft then .join branch q.other else .join q.other branch

/-- The query in which the branch has the name of its relation for its alias. -/
def aliased (q : UnaliasedJoin) : Query :=
  ⟨q.target, q.layers, q.source (.aliased q.relation q.inner (.name q.relation))⟩

/-- The query in which the columns of the branch say that they are of its relation. -/
def saying (q : UnaliasedJoin) : UnaliasedJoin :=
  { q with inner := q.inner.map (Layer.saying q.relation) }

/-- The wildcard that stands for the columns of the branch, which there is if it has no layers. -/
def wildcards (q : UnaliasedJoin) : List String :=
  if q.inner.isEmpty then [Columns.qualify q.relation "*"] else []

/-- The layers of the branch below the clauses, as they are but for the wildcard that a projection
gets. -/
def addInner (q : UnaliasedJoin) (c : Clauses) : Except Error Clauses :=
  q.inner.foldlM (fun c layer => c.add (layer.widened [Columns.qualify q.other.asName "*"])) c

/-- The layers of both branches below the clauses. By the time that those of a right branch come up,
those of the left one are gone, but not the other way round. -/
def addJoined (q : UnaliasedJoin) (c : Clauses) : Except Error Clauses :=
  if q.onLeft then do
    let c ← q.addInner c
    c.addBranchBeside [Columns.qualify q.relation "*"] q.other
  else do
    let c ← c.addBranchBeside q.wildcards q.other
    q.addInner c

/-- The clauses that the layers come to. -/
def clauses (q : UnaliasedJoin) : Except Error Clauses := do
  let c ← q.layers.foldlM Clauses.add .empty
  q.addJoined c

/-- The flat select with given clauses, in which the branch is the name of its relation. -/
def flat (q : UnaliasedJoin) (c : Clauses) : Query :=
  Query.withClauses ⟨q.target, [], q.source (.bare q.relation)⟩ c

theorem branchAlias?_branch (q : UnaliasedJoin) :
    (q.branch.bare.branchAlias?.map (Columns.qualify · "*")).toList = q.wildcards := by
  rw [branch, wildcards]
  cases q.inner with
  | nil => rfl
  | cons layer rest => cases layer <;> rfl

theorem check_toExpr (q : UnaliasedJoin) : q.toExpr.check = .ok () := by
  have hbranch : q.branch.check = .ok () := Layer.check_stack q.inner rfl
  have hjoined : q.joined.check = .ok () := by
    rw [joined]
    split
    · exact Expr.check_input2 hbranch q.other.check_toExpr
    · exact Expr.check_input2 q.other.check_toExpr hbranch
  exact Expr.check_assign q.target (Layer.check_stack q.layers hjoined)

end UnaliasedJoin

namespace JoinFrame

variable {wildcards : List String} (j : JoinFrame wildcards) {below below' : Subtree}

/-- A join with a right branch of whatever kind. -/
def beforeAny (right : Subtree)
    (hwildcards : (right.branchAlias?.map (Columns.qualify · "*")).toList = wildcards) :
    JoinFrame wildcards where
  frame := ⟨0, .input2, none, [], [some right]⟩
  kind_eq := rfl
  slot_lt := Nat.zero_lt_two
  wildcards_eq s := by
    rw [← hwildcards]
    cases halias : right.branchAlias? <;>
      simp [Subtree.siblingWildcards, Frame.slot, List.zipIdx_cons, halias]
  clear := rfl

/-- The way from a branch without an alias up to the root. -/
def joinPath (target : String) (c : Clauses) : Path :=
  j.frame :: c.path target

theorem clear_joinPath (target : String) (c : Clauses) :
    (j.joinPath target c).Clear .flatSelect queryRoots :=
  (j.clear_path target "" c).2.2

/-- The outermost layer of a branch without an alias is added to the clauses as it is. -/
theorem liftsTo_widened {layer : Layer} (hkind : layer.kind ≠ .extraColumn) (target : String)
    (c : Clauses) (rest : List Layer) :
    ((j.joinPath target c).fill ((Layer.path (layer :: rest)).fill below)).LiftsTo .flatSelect
      queryRoots ((c.add (layer.widened wildcards)).map fun c =>
        (j.joinPath target c).fill ((Layer.path rest).fill below)) := by
  rw [Layer.path_cons, Path.fill_append]
  refine Layer.liftsTo (j.clear_joinPath target c) (by simp [joinPath]) (j.allows_eq layer) ?_
  rw [joinPath, j.rise_join hkind]
  exact c.rise_add target _ _ _

/-- The layers of a branch come up one by one, without an alias as they are and with one as it makes
them. -/
theorem abreast_inner {target asName : String} {n : Nat} {layers : List Layer}
    {finish finish' : Clauses → Except Error Subtree}
    (hkind : ∀ layer ∈ layers, layer.kind ≠ .extraColumn)
    (hbelow : ∀ c c' : Clauses, ((j.joinPath target c).fill below).Abreast .flatSelect queryRoots
      ((j.path target asName c').fill below') n (finish c) (finish' c')) (c c' : Clauses) :
    ((j.joinPath target c).fill ((Layer.path layers).fill below)).Abreast .flatSelect queryRoots
      ((j.path target asName c').fill ((Layer.path layers).fill below')) (layers.length + n)
      (layers.foldlM (fun c layer => c.add (layer.widened wildcards)) c >>= finish)
      (layers.foldlM (Clauses.addLeaving asName wildcards) c' >>= finish') := by
  refine Subtree.abreast_foldlM (fun c layer => c.add (layer.widened wildcards))
    (Clauses.addLeaving asName wildcards)
    (fun c rest => (j.joinPath target c).fill ((Layer.path rest).fill below))
    (fun c rest => (j.path target asName c).fill ((Layer.path rest).fill below'))
    layers ?_ hbelow c c'
  intro c c' layer hlayer rest
  refine ⟨?_, j.liftsTo_widened (hkind layer hlayer) target c rest,
    j.liftsTo target asName c' layer rest⟩
  cases layer with
  | extraColumn => exact absurd rfl (hkind _ hlayer)
  | rename | projection | condition => trivial

end JoinFrame

namespace UnaliasedJoin

variable {q : UnaliasedJoin}

/-- Flat selects are left, one with the name of the relation and one with an alias over it. -/
theorem abreast_flat (q : UnaliasedJoin) (c c' : Clauses) :
    ((c.path q.target).fill (q.source (.bare q.relation)).stripped.toExpr.bare).Abreast .flatSelect
      queryRoots ((c'.path q.target).fill q.aliased.source.stripped.toExpr.bare) 0
      (.ok (q.flat c).toExpr.bare) (.ok (q.aliased.withClauses c').toExpr.bare) := by
  have hflat := Subtree.abreast_of_canonical
    (Query.deviation?_withClauses ⟨q.target, [], q.source (.bare q.relation)⟩ c)
    (q.aliased.deviation?_withClauses c')
  rwa [← Query.withClauses_bare ⟨q.target, [], q.source (.bare q.relation)⟩ c,
    show q.target = q.aliased.target from rfl, ← q.aliased.withClauses_bare c']

/-- What the alias makes of the layers of both branches. -/
theorem addSource_aliased (q : UnaliasedJoin) (c : Clauses) :
    c.addSource q.aliased.source =
      if q.onLeft then
        q.inner.foldlM (Clauses.addLeaving q.relation [Columns.qualify q.other.asName "*"]) c >>=
          fun c => c.addBranchBeside [Columns.qualify q.relation "*"] q.other
      else
        c.addBranchBeside [Columns.qualify q.relation "*"] q.other >>= fun c =>
          q.inner.foldlM (Clauses.addLeaving q.relation [Columns.qualify q.other.asName "*"])
            c := by
  let branch : Branch := .aliased q.relation q.inner (.name q.relation)
  have hsource : q.aliased.source =
      if q.onLeft then .join branch q.other else .join q.other branch := rfl
  rw [hsource]
  cases q.onLeft with
  | true =>
      rw [if_pos rfl, if_pos rfl, Clauses.addSource, Clauses.addBranch_eq]
      exact bind_congr fun c => c.addBranch_eq q.relation q.other
  | false =>
      rw [if_neg Bool.false_ne_true, if_neg Bool.false_ne_true, Clauses.addSource,
        Clauses.addBranch_eq]
      exact bind_congr fun c => c.addBranch_eq q.other.asName branch

/-- The layers of the branches, with the clauses of the query above. -/
theorem abreast_joined (hkind : ∀ layer ∈ q.inner, layer.kind ≠ .extraColumn) (c : Clauses) :
    ((c.path q.target).fill q.joined.bare).Abreast .flatSelect queryRoots
      ((c.path q.target).fill q.aliased.source.toExpr.bare) q.aliased.source.layerCount
      (q.addJoined c >>= fun c => .ok (q.flat c).toExpr.bare)
      (c.addSource q.aliased.source >>= fun c => .ok (q.aliased.withClauses c).toExpr.bare) := by
  have hflat := q.abreast_flat
  have hwildcards := q.branchAlias?_branch
  rw [addSource_aliased, addJoined]
  obtain ⟨target, layers, relation, inner, other, onLeft⟩ := q
  let branch : Branch := .aliased relation inner (.name relation)
  cases onLeft with
  | true =>
      have hright := fun c c' => Query.abreast_branch (.afterLeft (.bare relation))
        (.afterLeft branch) other hflat c c'
      have hleft := JoinFrame.abreast_inner (.beforeRight other) hkind hright c c
      rw [← Layer.bare_stack, ← Layer.bare_stack] at hleft
      simp only [if_true, bind_assoc]
      exact hleft
  | false =>
      have hright := fun c c' => JoinFrame.abreast_inner (.afterLeft other) hkind hflat c c'
      simp only [← Layer.bare_stack] at hright
      have hleft := Query.abreast_branch (.beforeAny _ hwildcards) (.beforeRight branch) other
        hright c c
      simp only [Bool.false_eq_true, if_false, bind_assoc]
      exact hleft

/-- Lifting goes on side by side in the query and in the one with the alias. -/
theorem abreast (hkind : ∀ layer ∈ q.inner, layer.kind ≠ .extraColumn) :
    q.toExpr.bare.Abreast .flatSelect queryRoots q.aliased.toExpr.bare q.aliased.layerCount
      (q.clauses >>= fun c => .ok (q.flat c).toExpr.bare)
      (q.aliased.clauses >>= fun c => .ok (q.aliased.withClauses c).toExpr.bare) := by
  have hlayers := Clauses.abreast_layers (abreast_joined hkind) q.layers .empty
  rw [← Layer.bare_stack, ← Layer.bare_stack] at hlayers
  rw [clauses, Query.clauses, bind_assoc, bind_assoc]
  exact hlayers

/-! ### Columns that say what they are of -/

theorem foldlM_congr {step step' : Clauses → Layer → Except Error Clauses} {layers : List Layer}
    (h : ∀ c, ∀ layer ∈ layers, step c layer = step' c layer) (c : Clauses) :
    layers.foldlM step c = layers.foldlM step' c := by
  induction layers generalizing c with
  | nil => rfl
  | cons layer rest ih =>
      rw [List.foldlM_cons, List.foldlM_cons, h c layer List.mem_cons_self]
      refine bind_congr fun c => ih (fun c layer hlayer => ?_) c
      exact h c layer (List.mem_cons_of_mem _ hlayer)

theorem addInner_saying (hkind : ∀ layer ∈ q.inner, layer.kind ≠ .extraColumn) (c : Clauses) :
    q.saying.addInner c =
      q.inner.foldlM (Clauses.addLeaving q.relation [Columns.qualify q.other.asName "*"]) c := by
  refine List.foldlM_map.trans (foldlM_congr ?_ c)
  intro c layer hlayer
  cases layer with
  | extraColumn => exact absurd rfl (hkind _ hlayer)
  | rename | projection | condition => rfl

/-- Without projections it does not matter which wildcards there are. -/
theorem addBranchBeside_congr {branch : Branch}
    (h : ∀ layer ∈ branch.layers, layer.kind ≠ .projection) (wildcards wildcards' : List String)
    (c : Clauses) : c.addBranchBeside wildcards branch = c.addBranchBeside wildcards' branch := by
  cases branch with
  | bare relation => rfl
  | aliased asName layers relation =>
      refine foldlM_congr ?_ c
      intro c layer hlayer
      cases layer with
      | projection => exact absurd rfl (h _ hlayer)
      | rename | extraColumn | condition => rfl

/-- If the columns say what they are of, the layers come to the same clauses as with the alias. -/
theorem clauses_saying (hkind : ∀ layer ∈ q.inner, layer.kind ≠ .extraColumn)
    (hother : q.onLeft = false → ∀ layer ∈ q.other.layers, layer.kind ≠ .projection) :
    q.saying.clauses = q.aliased.clauses := by
  refine bind_congr fun c => ?_
  rw [addSource_aliased, addJoined, show q.saying.onLeft = q.onLeft from rfl,
    show q.saying.other = q.other from rfl, show q.saying.relation = q.relation from rfl]
  cases hside : q.onLeft with
  | true => rw [if_pos rfl, if_pos rfl, addInner_saying hkind]
  | false =>
      rw [if_neg Bool.false_ne_true, if_neg Bool.false_ne_true,
        addBranchBeside_congr (hother hside) _ [Columns.qualify q.relation "*"]]
      exact bind_congr fun c => addInner_saying hkind c

/-! ### Normalization -/

theorem exists_clauses {found : Except Error Clauses} {flat : Clauses → Query} {whole : Subtree}
    (h : (found >>= fun c => .ok (flat c).toExpr.bare) = .ok whole) :
    ∃ c, found = .ok c ∧ whole = (flat c).toExpr.bare := by
  cases found with
  | error cause => cases h
  | ok c => exact ⟨c, rfl, (Except.ok.inj h).symm⟩

/-- Take a query over a join one of whose branches has layers over a stored relation and no alias,
none of them a derived column, and the query in which the name of the relation is the alias of that
branch. With whatever budget, a normalization fails for both, for one cause, and leaves them as they
are, or it takes as many lifts for both and gives the flat selects of the clauses that one pass over
the layers finds. In the first, the layers of the branch are taken as they are, and the branch is
left as the name. The two passes find the same clauses if the columns of the branch say that they
are of its relation, unless the branch is the right one and there is a projection in the left
one. -/
theorem normalize_beside_aliased (q : UnaliasedJoin)
    (hkind : ∀ layer ∈ q.inner, layer.kind ≠ .extraColumn) :
    ∃ t t', Tree.ofExpr q.toExpr = .ok t ∧ Tree.ofExpr q.aliased.toExpr = .ok t' ∧
      (∀ budget, match Edit.normalize .flatSelect queryRoots budget t,
          Edit.normalize .flatSelect queryRoots budget t' with
        | .ok tally flat, .ok tally' flat' => tally'.lifts = tally.lifts ∧
          (∃ c, q.clauses = .ok c ∧ Tree.ofExpr (q.flat c).toExpr = .ok flat) ∧
          ∃ c, q.aliased.clauses = .ok c ∧
            Tree.ofExpr (q.aliased.withClauses c).toExpr = .ok flat'
        | .error cause left, .error cause' left' => cause' = cause ∧ left = t ∧ left' = t'
        | _, _ => False) ∧
      ((q.onLeft = false → ∀ layer ∈ q.other.layers, layer.kind ≠ .projection) →
        q.saying.clauses = q.aliased.clauses) := by
  obtain ⟨t, ht⟩ : ∃ t, Tree.ofExpr q.toExpr = .ok t := by
    rw [Tree.ofExpr, q.check_toExpr]
    exact ⟨_, rfl⟩
  obtain ⟨t', ht'⟩ := q.aliased.exists_tree
  refine ⟨t, t', ht, ht', ?_, clauses_saying hkind⟩
  intro budget
  have hruns := Edit.normalize_of_abreast (abreast hkind) (Tree.bears_of_ofExpr ht)
    (Tree.bears_of_ofExpr ht') budget
  cases hrun : Edit.normalize .flatSelect queryRoots budget t with
  | error cause left =>
      cases hrun' : Edit.normalize .flatSelect queryRoots budget t' with
      | ok => simp only [hrun, hrun'] at hruns
      | error cause' left' =>
          simp only [hrun, hrun'] at hruns
          exact hruns
  | ok tally flat =>
      cases hrun' : Edit.normalize .flatSelect queryRoots budget t' with
      | error => simp only [hrun, hrun'] at hruns
      | ok tally' flat' =>
          simp only [hrun, hrun'] at hruns
          obtain ⟨hlifts, ⟨_, last, hresult, rfl, hlast⟩, _, last', hresult', rfl, hlast'⟩ := hruns
          obtain ⟨c, hclauses, rfl⟩ := exists_clauses hresult
          obtain ⟨c', hclauses', rfl⟩ := exists_clauses hresult'
          exact ⟨hlifts, ⟨c, hclauses, hlast.ofExpr_eq (Query.check_toExpr _)⟩,
            c', hclauses', hlast'.ofExpr_eq (Query.check_toExpr _)⟩

/-- A query with a projection, a rename and a condition in its left branch, and a projection in its
right one. -/
def exampleJoin : UnaliasedJoin where
  target := "T"
  layers := [.condition (.name "N.a")]
  relation := "N"
  inner := [.projection ["a"], .rename "a" "k", .condition (.name "k")]
  other := .aliased "M" [.projection ["b"]] (.name "m")
  onLeft := true

theorem normalize_beside_aliased_example :
    (∀ layer ∈ exampleJoin.inner, layer.kind ≠ .extraColumn) ∧
      (exampleJoin.onLeft = false → ∀ layer ∈ exampleJoin.other.layers, layer.kind ≠ .projection) ∧
      exampleJoin.saying.clauses = exampleJoin.aliased.clauses ∧
      ∃ t t' tally tally' flat flat' c c', Tree.ofExpr exampleJoin.toExpr = .ok t ∧
        Tree.ofExpr exampleJoin.aliased.toExpr = .ok t' ∧
        Edit.normalize .flatSelect queryRoots 4 t = .ok tally flat ∧
        Edit.normalize .flatSelect queryRoots 4 t' = .ok tally' flat' ∧
        tally'.lifts = tally.lifts ∧ exampleJoin.clauses = .ok c ∧
        Tree.ofExpr (exampleJoin.flat c).toExpr = .ok flat ∧
        c.renames = [("a", "k")] ∧ c.projection = some ["M.b"] ∧
        exampleJoin.aliased.clauses = .ok c' ∧
        Tree.ofExpr (exampleJoin.aliased.withClauses c').toExpr = .ok flat' ∧
        c'.renames = [("N.a", "N.k")] ∧ c'.projection = some ["N.k", "M.b"] := by
  have hkind : ∀ layer ∈ exampleJoin.inner, layer.kind ≠ .extraColumn := by
    have hkinds : exampleJoin.inner.all (·.kind ≠ .extraColumn) = true := by decide
    intro layer hlayer
    exact of_decide_eq_true (List.all_eq_true.mp hkinds layer hlayer)
  have hother : exampleJoin.onLeft = false →
      ∀ layer ∈ exampleJoin.other.layers, layer.kind ≠ .projection := nofun
  obtain ⟨t, t', ht, ht', hruns, hsame⟩ := normalize_beside_aliased exampleJoin hkind
  have hsucceeds : (match Edit.normalize .flatSelect queryRoots 4
        (Tree.planted exampleJoin.toExpr) with
      | .ok _ _ => true
      | .error _ _ => false) = true := by decide +kernel
  rw [← (Tree.ofExpr_eq_ok.mp ht).2] at hsucceeds
  specialize hruns 4
  cases hrun : Edit.normalize .flatSelect queryRoots 4 t with
  | error =>
      rw [hrun] at hsucceeds
      cases hsucceeds
  | ok tally flat =>
      cases hrun' : Edit.normalize .flatSelect queryRoots 4 t' with
      | error => simp only [hrun, hrun'] at hruns
      | ok tally' flat' =>
          simp only [hrun, hrun'] at hruns
          obtain ⟨hlifts, ⟨c, hclauses, hflat⟩, c', hclauses', hflat'⟩ := hruns
          have hfound : exampleJoin.clauses.map (fun c => (c.renames, c.projection)) =
              .ok ([("a", "k")], some ["M.b"]) := by rfl
          have hfound' : exampleJoin.aliased.clauses.map (fun c => (c.renames, c.projection)) =
              .ok ([("N.a", "N.k")], some ["N.k", "M.b"]) := by rfl
          rw [hclauses] at hfound
          rw [hclauses'] at hfound'
          obtain ⟨hrenames, hprojection⟩ := Prod.mk.inj (Except.ok.inj hfound)
          obtain ⟨hrenames', hprojection'⟩ := Prod.mk.inj (Except.ok.inj hfound')
          exact ⟨hkind, hother, hsame hother, t, t', tally, tally', flat, flat', c, c', ht, ht',
            hrun, hrun', hlifts, hclauses, hflat, hrenames, hprojection, hclauses', hflat',
            hrenames', hprojection'⟩

/-- Without an alias, and with columns that do not say what they are of, a column gets lost: the
projection of the right branch lets through what is called `N.*`, and `a` is not. With the alias it
is kept. -/
theorem normalize_loses_column :
    let q : UnaliasedJoin :=
      ⟨"T", [], "N", [.projection ["a"]], .aliased "M" [.projection ["b"]] (.name "m"), true⟩
    ∃ t t' flat flat', Tree.ofExpr q.toExpr = .ok t ∧ Tree.ofExpr q.aliased.toExpr = .ok t' ∧
      Edit.normalize .flatSelect queryRoots 2 t = .ok ⟨2, 1⟩ flat ∧
      Edit.normalize .flatSelect queryRoots 2 t' = .ok ⟨2, 1⟩ flat' ∧
      flat.toExpr = .assign "T" (.projection ["M.b"]
        (.input2 (.name "N") (.renameAll "M" (.name "m")))) ∧
      flat'.toExpr = .assign "T" (.projection ["N.a", "M.b"]
        (.input2 (.renameAll "N" (.name "N")) (.renameAll "M" (.name "m")))) := by
  intro q
  have hrun : ((Edit.normalize .flatSelect queryRoots 2).result (.planted q.toExpr)).toOption.map
      (Prod.map id Tree.toExpr) = some (⟨2, 1⟩, .assign "T" (.projection ["M.b"]
        (.input2 (.name "N") (.renameAll "M" (.name "m"))))) := by decide +kernel
  have hrun' : ((Edit.normalize .flatSelect queryRoots 2).result
      (.planted q.aliased.toExpr)).toOption.map (Prod.map id Tree.toExpr) =
        some (⟨2, 1⟩, .assign "T" (.projection ["N.a", "M.b"]
          (.input2 (.renameAll "N" (.name "N")) (.renameAll "M" (.name "m"))))) := by decide +kernel
  obtain ⟨t, flat, ht, hnormalize, hexpr⟩ := Edit.exists_normalize q.check_toExpr hrun
  obtain ⟨t', flat', ht', hnormalize', hexpr'⟩ :=
    Edit.exists_normalize q.aliased.check_toExpr hrun'
  exact ⟨t, t', flat, flat', ht, ht', hnormalize, hnormalize', hexpr, hexpr'⟩

end UnaliasedJoin

end FlatSelect
