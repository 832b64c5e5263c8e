import FlatSelect.Proofs.Listing
import FlatSelect.Proofs.Rooted
import Mathlib.Data.List.ReduceOption

/-!
# The names at the leaves

Names stand at the leaves of an expression, since the leaves are the constants, and these alone hold
values (`Tree.WellFormed`). To replace a name below a node, or to qualify the columns there, is to
change the leaves of the expression below it. Nothing else changes, neither links nor what is not
below the node (`Tree.RenamesBelow`).

What is done to one node does not depend on what has been done to another, so names may be changed
in any order. It comes to the same whether the nodes below are listed first or a pass goes down to
them with a stack, on which the last child is the first to be seen (`Tree.sweeps_subtree`).
-/

namespace FlatSelect

namespace Expr

mutual
/-- Puts `new text` for the text of every leaf that holds a name. -/
def mapLeaves (new : String → String) : Expr → Expr
  | .node .constant (some (.name text)) children =>
    .node .constant (some (.name (new text))) (mapLeavesAll new children)
  | .node kind value children => .node kind value (mapLeavesAll new children)
/-- Puts `new text` for the text of every leaf of several expressions. -/
def mapLeavesAll (new : String → String) : List Expr → List Expr
  | [] => []
  | e :: es => e.mapLeaves new :: mapLeavesAll new es
end

mutual
/-- The texts of the leaves that hold names, from left to right. -/
def leafNames : Expr → List String
  | .node .constant (some (.name text)) children => text :: leafNamesAll children
  | .node _ _ children => leafNamesAll children
/-- The texts of the leaves of several expressions. -/
def leafNamesAll : List Expr → List String
  | [] => []
  | e :: es => e.leafNames ++ leafNamesAll es
end

variable {kind : Kind} {value : Option Value} {children : List Expr}

theorem mapLeaves_of_asName (new : String → String) (h : value.bind Value.asName? = none) :
    (node kind value children).mapLeaves new = .node kind value (mapLeavesAll new children) := by
  unfold mapLeaves
  split
  · rename_i hnode
    cases hnode
    cases h
  · rename_i hnode
    cases hnode
    rfl

theorem leafNames_of_asName (h : value.bind Value.asName? = none) :
    (node kind value children).leafNames = leafNamesAll children := by
  unfold leafNames
  split
  · rename_i hnode
    cases hnode
    cases h
  · rename_i hnode
    cases hnode
    rfl

end Expr

namespace Value

variable {value : Option Value} {text : String}

theorem bind_asName?_eq_some : value.bind asName? = some text ↔ value = some (.name text) := by
  cases value with
  | none => exact iff_of_false nofun nofun
  | some v => cases v <;> simp [asName?]

/-- Only names are changed. -/
theorem bind_mapName? (f : String → Option String) (value : Option Value) :
    value.bind (·.mapName? f) = ((value.bind asName?).bind f).map name := by
  cases value with
  | none => rfl
  | some v => cases v <;> rfl

end Value

/-- The new name for a text that is to be changed. -/
def change (hit : String → Bool) (new : String → String) (text : String) : Option String :=
  if hit text then some (new text) else none

namespace Subtree

/-- The name that a node holds, if it holds one. -/
def name? (n : Subtree) : Option String :=
  n.value.bind Value.asName?

/-- Constants are leaves, and no other node holds a value. -/
structure ValuedAtLeaf (n : Subtree) : Prop where
  slots_eq (h : n.kind = .constant) : n.slots = []
  kind_eq {v : Value} (h : n.value = some v) : n.kind = .constant

variable {hit : String → Bool} {new : String → String}

theorem renamed_of_asName {f : String → Option String} {value : Option Value}
    (h : value.bind Value.asName? = none) : renamed f value = value := by
  rw [renamed, Value.bind_mapName?, h]
  rfl

/-- The names that nodes hold are changed, and no others come about. -/
theorem asName_renamed (f : String → Option String) (value : Option Value) :
    (renamed f value).bind Value.asName? =
      (value.bind Value.asName?).map fun text => (f text).getD text := by
  cases hname : value.bind Value.asName? with
  | none => rw [renamed_of_asName hname, hname]; rfl
  | some text =>
      obtain rfl := Value.bind_asName?_eq_some.mp hname
      cases h : f text <;> simp [renamed, Value.mapName?, Value.asName?, h]

theorem getD_change (hit : String → Bool) (new : String → String) (text : String) :
    (change hit new text).getD text = if hit text then new text else text := by
  rw [change]
  split <;> rfl

theorem name?_mapNames (hit : String → Bool) (new : String → String) (n : Subtree) :
    (n.mapNames (change hit new)).name? =
      n.name?.map fun text => if hit text then new text else text := by
  obtain ⟨id, kind, value, slots⟩ := n
  simp only [← getD_change]
  exact asName_renamed _ value

/-- The names in a subtree after some have been changed. -/
theorem names_mapNames (hit : String → Bool) (new : String → String) (s : Subtree) :
    (s.mapNames (change hit new)).preorder.filterMap name? =
      (s.preorder.filterMap name?).map fun text => if hit text then new text else text := by
  rw [preorder_mapNames, List.filterMap_map, List.map_filterMap]
  exact congrArg (List.filterMap · _) (funext (name?_mapNames hit new))

theorem mentions_iff {s : Subtree} {name : String} :
    s.mentions name = true ↔ name ∈ s.preorder.filterMap name? := by
  simp only [mentions, List.any_eq_true, decide_eq_true_eq, List.mem_filterMap, name?,
    Value.bind_asName?_eq_some]

mutual
/-- Changing names in a subtree changes the leaves of its expression. -/
theorem toExpr_mapNames : ∀ {s : Subtree}, (∀ n ∈ s.preorder, n.ValuedAtLeaf) →
    (s.mapNames (change hit new)).toExpr =
      s.toExpr.mapLeaves fun text => if hit text then new text else text
  | .node id kind value slots, h => by
    have htop := h _ List.mem_cons_self
    have hslots := toExprs_mapNamesIn fun n hn => h n (List.mem_cons_of_mem _ hn)
    change Expr.node kind (renamed (change hit new) value) _ = (Expr.node kind value _).mapLeaves _
    rw [hslots]
    cases hname : value.bind Value.asName? with
    | none => rw [renamed_of_asName hname, Expr.mapLeaves_of_asName _ hname]
    | some text =>
        have hrenamed := asName_renamed (change hit new) value
        rw [hname, Option.map_some, Value.bind_asName?_eq_some, getD_change] at hrenamed
        obtain rfl := Value.bind_asName?_eq_some.mp hname
        obtain rfl : kind = .constant := htop.kind_eq rfl
        rw [hrenamed]
        rfl
theorem toExprs_mapNamesIn : ∀ {slots : List (Option Subtree)},
    (∀ n ∈ preorderAll slots, n.ValuedAtLeaf) →
      toExprs (mapNamesIn (change hit new) slots) =
        Expr.mapLeavesAll (fun text => if hit text then new text else text) (toExprs slots)
  | [], _ => rfl
  | none :: rest, h => @toExprs_mapNamesIn rest h
  | some s :: rest, h => by
    have hs := toExpr_mapNames fun n hn => h n (List.mem_append_left _ hn)
    have hrest := toExprs_mapNamesIn fun n hn => h n (List.mem_append_right _ hn)
    rw [mapNamesIn, toExprs, toExprs, hs, hrest]
    rfl
end

mutual
/-- The names in a subtree are those at the leaves of its expression. -/
theorem leafNames_toExpr : ∀ {s : Subtree}, (∀ n ∈ s.preorder, n.ValuedAtLeaf) →
    s.toExpr.leafNames = s.preorder.filterMap name?
  | .node id kind value slots, h => by
    have htop := h _ List.mem_cons_self
    have hslots := leafNamesAll_toExprs fun n hn => h n (List.mem_cons_of_mem _ hn)
    change (Expr.node kind value _).leafNames = List.filterMap name? (_ :: preorderAll slots)
    cases hname : name? (.node id kind value slots) with
    | none =>
        rw [List.filterMap_cons_none hname, ← hslots]
        exact Expr.leafNames_of_asName hname
    | some text =>
        rw [List.filterMap_cons_some hname, ← hslots]
        obtain rfl := Value.bind_asName?_eq_some.mp hname
        obtain rfl : kind = .constant := htop.kind_eq rfl
        rfl
theorem leafNamesAll_toExprs : ∀ {slots : List (Option Subtree)},
    (∀ n ∈ preorderAll slots, n.ValuedAtLeaf) →
      Expr.leafNamesAll (toExprs slots) = (preorderAll slots).filterMap name?
  | [], _ => rfl
  | none :: rest, h => @leafNamesAll_toExprs rest h
  | some s :: rest, h => by
    have hs := leafNames_toExpr fun n hn => h n (List.mem_append_left _ hn)
    have hrest := leafNamesAll_toExprs fun n hn => h n (List.mem_append_right _ hn)
    rw [toExprs, Expr.leafNamesAll, preorderAll, List.filterMap_append, hs, hrest]
end

end Subtree

namespace Tree

variable {f : String → Option String} {counted : Nat × Tree} {id other : NodeId}

theorem update_comm (t : Tree) {id other : NodeId} (hne : id ≠ other) (f g : Node → Node) :
    (t.update id f).update other g = (t.update other g).update id f := by
  have hnodes : (t.nodes.modify id f).modify other g = (t.nodes.modify other g).modify id f := by
    refine Array.ext_getElem? fun i => ?_
    simp only [Array.getElem?_modify]
    by_cases hid : id = i <;> by_cases hother : other = i <;> simp [hid, hother]
    exact absurd (hid.trans hother.symm) hne
  rw [update, update, update, update]
  simp only [hnodes]

/-- The value that a node is to get, if it holds a name that is to be changed. -/
def due (f : String → Option String) (t : Tree) (id : NodeId) : Option Value :=
  (t.value id).bind (·.mapName? f)

theorem renameAt_of_none (h : due f counted.2 id = none) : renameAt f counted id = counted := by
  rw [due] at h
  rw [renameAt, h]

theorem renameAt_of_some {v : Value} (h : due f counted.2 id = some v) :
    renameAt f counted id = (counted.1 + 1, counted.2.setValue id v) := by
  rw [due] at h
  rw [renameAt, h]

theorem due_renameAt (hne : id ≠ other) :
    due f (renameAt f counted id).2 other = due f counted.2 other := by
  rw [due, value, node_renameAt, if_neg hne]
  rfl

/-- What is done to a node does not depend on what has been done to another. -/
theorem renameAt_comm (counted : Nat × Tree) (id other : NodeId) :
    renameAt f (renameAt f counted id) other = renameAt f (renameAt f counted other) id := by
  by_cases hne : id = other
  · rw [hne]
  · have hother : due f (renameAt f counted id).2 other = due f counted.2 other :=
      due_renameAt hne
    have hid : due f (renameAt f counted other).2 id = due f counted.2 id :=
      due_renameAt fun h => hne h.symm
    cases ha : due f counted.2 id with
    | none => rw [renameAt_of_none ha, renameAt_of_none (hid.trans ha)]
    | some v =>
        cases hb : due f counted.2 other with
        | none => rw [renameAt_of_none hb, renameAt_of_none (hother.trans hb)]
        | some w =>
            rw [renameAt_of_some (hother.trans hb), renameAt_of_some (hid.trans ha),
              renameAt_of_some ha, renameAt_of_some hb]
            exact congrArg _ (update_comm _ hne _ _)

/-- It does not matter in which order nodes are gone through. -/
theorem foldl_renameAt_append (counted : Nat × Tree) (ids others : List NodeId) :
    (ids ++ others).foldl (renameAt f) counted = (others ++ ids).foldl (renameAt f) counted :=
  List.perm_append_comm.foldl_eq' (fun _ _ _ _ counted => renameAt_comm counted _ _) counted

/-- The number of nodes that are changed, if each is gone through once. -/
theorem count_foldl_renameAt {ids : List NodeId} (hids : ids.Nodup) (counted : Nat × Tree) :
    (ids.foldl (renameAt f) counted).1 =
      counted.1 + ids.countP fun id => (due f counted.2 id).isSome := by
  induction ids generalizing counted with
  | nil => rfl
  | cons id rest ih =>
      obtain ⟨hid, hrest⟩ := List.nodup_cons.mp hids
      have hcount : (renameAt f counted id).1 =
          counted.1 + if (due f counted.2 id).isSome then 1 else 0 := by
        cases ha : due f counted.2 id with
        | none => rw [renameAt_of_none ha]; rfl
        | some v => rw [renameAt_of_some ha]; rfl
      have hdue : rest.countP (fun other => (due f (renameAt f counted id).2 other).isSome) =
          rest.countP fun other => (due f counted.2 other).isSome := by
        refine List.countP_congr fun other hother => ?_
        rw [due_renameAt]
        rintro rfl
        exact hid hother
      rw [List.foldl_cons, ih hrest, hcount, hdue, List.countP_cons, Nat.add_assoc,
        Nat.add_comm (ite _ _ _)]

/-! ### Passes with a stack -/

/-- One pass over what is on a stack, the top first. Where the pass halts it changes the name, if
there is one to be changed; anywhere else it puts the children on the stack, the last one on top. -/
inductive Sweeps (halts : Tree → NodeId → Bool) (f : String → Option String) :
    Nat × Tree → List NodeId → Nat × Tree → Prop
  | done {counted : Nat × Tree} : Sweeps halts f counted [] counted
  | leaf {counted result : Nat × Tree} {id : NodeId} {stack : List NodeId}
    (h : halts counted.2 id = true) (hrest : Sweeps halts f (renameAt f counted id) stack result) :
    Sweeps halts f counted (id :: stack) result
  | inner {counted result : Nat × Tree} {id : NodeId} {stack : List NodeId}
    (h : halts counted.2 id = false)
    (hrest : Sweeps halts f counted ((counted.2.slots id).reduceOption.reverse ++ stack) result) :
    Sweeps halts f counted (id :: stack) result

/-- A search with a stack, the top first. It ends where the name is found. -/
inductive Seeks (t : Tree) (name : String) : List NodeId → Bool → Prop
  | done : Seeks t name [] false
  | hit {id : NodeId} {stack : List NodeId} (h : t.value id = some (.name name)) :
    Seeks t name (id :: stack) true
  | miss {id : NodeId} {stack : List NodeId} {found : Bool} (h : t.value id ≠ some (.name name))
    (hrest : Seeks t name ((t.slots id).reduceOption.reverse ++ stack) found) :
    Seeks t name (id :: stack) found

variable {halts : Tree → NodeId → Bool} {stack : List NodeId} {result result' : Nat × Tree}
variable {t : Tree} {name : String} {found found' : Bool}

theorem Sweeps.unique (h : Sweeps halts f counted stack result)
    (h' : Sweeps halts f counted stack result') : result = result' := by
  induction h with
  | done =>
      cases h'
      rfl
  | leaf hhalts _ ih =>
      cases h' with
      | leaf _ hrest => exact ih hrest
      | inner hgoes => rw [hhalts] at hgoes; cases hgoes
  | inner hgoes _ ih =>
      cases h' with
      | leaf hhalts => rw [hgoes] at hhalts; cases hhalts
      | inner _ hrest => exact ih hrest

theorem Seeks.unique (h : t.Seeks name stack found) (h' : t.Seeks name stack found') :
    found = found' := by
  induction h with
  | done =>
      cases h'
      rfl
  | hit hname =>
      cases h' with
      | hit => rfl
      | miss hother => exact absurd hname hother
  | miss hother _ ih =>
      cases h' with
      | hit hname => exact absurd hname hother
      | miss _ hrest => exact ih hrest

/-- Whether a pass halts at a node does not depend on what the names are. -/
def Steady (halts : Tree → NodeId → Bool) : Prop :=
  ∀ (f : String → Option String) (counted : Nat × Tree) (id other : NodeId),
    halts (renameAt f counted id).2 other = halts counted.2 other

/-- Where a pass halts there is a leaf, and where it does not there is no name. -/
structure Passes (halts : Tree → NodeId → Bool) (t : Tree) (n : Subtree) : Prop where
  slots_eq : t.slots n.id = n.slots.map (Option.map Subtree.id)
  leaf (h : halts t n.id = true) : n.slots = []
  unnamed (h : halts t n.id = false) : (t.value n.id).bind Value.asName? = none

theorem due_of_asName (h : (t.value id).bind Value.asName? = none) : due f t id = none := by
  rw [due, Value.bind_mapName?, h]
  rfl

theorem Passes.renameAt {n : Subtree} (h : Passes halts counted.2 n) (hsteady : Steady halts)
    (id : NodeId) : Passes halts (renameAt f counted id).2 n := by
  refine ⟨?_, fun hhalts => h.leaf (hsteady f counted id n.id ▸ hhalts), fun hgoes => ?_⟩
  · rw [slots, node_renameAt]
    split <;> exact h.slots_eq
  · have hunnamed := h.unnamed (hsteady f counted id n.id ▸ hgoes)
    rw [value, node_renameAt]
    split
    · change (Subtree.renamed f (counted.2.value n.id)).bind Value.asName? = none
      rw [Subtree.asName_renamed, hunnamed, Option.map_none]
    · exact hunnamed

theorem Passes.foldl_renameAt {n : Subtree} (hsteady : Steady halts) (ids : List NodeId)
    (h : Passes halts counted.2 n) : Passes halts (ids.foldl (Tree.renameAt f) counted).2 n := by
  induction ids generalizing counted with
  | nil => exact h
  | cons id rest ih => exact ih (h.renameAt hsteady id)

mutual
/-- A pass deals with a node and all that hangs below it, and then with the rest of its stack. -/
theorem sweeps_subtree (hsteady : Steady halts) : ∀ {s : Subtree} {counted : Nat × Tree}
    {stack : List NodeId}, (∀ n ∈ s.preorder, Passes halts counted.2 n) →
      Sweeps halts f (s.ids.foldl (renameAt f) counted) stack result →
      Sweeps halts f counted (s.id :: stack) result
  | .node id kind value slots, counted, stack, h, hrest => by
    have htop := h _ List.mem_cons_self
    change Sweeps halts f (((Subtree.preorderAll slots).map Subtree.id).foldl (renameAt f)
      (renameAt f counted id)) stack result at hrest
    change Sweeps halts f counted (id :: stack) result
    cases hhalts : halts counted.2 id with
    | true =>
        obtain rfl : slots = [] := htop.leaf hhalts
        exact .leaf hhalts hrest
    | false =>
        have hsame : renameAt f counted id = counted :=
          renameAt_of_none (due_of_asName (htop.unnamed hhalts))
        rw [hsame] at hrest
        refine .inner hhalts ?_
        rw [show counted.2.slots id = _ from htop.slots_eq]
        exact sweeps_slots hsteady (fun n hn => h n (List.mem_cons_of_mem _ hn)) hrest
theorem sweeps_slots (hsteady : Steady halts) : ∀ {slots : List (Option Subtree)}
    {counted : Nat × Tree} {stack : List NodeId},
      (∀ n ∈ Subtree.preorderAll slots, Passes halts counted.2 n) →
      Sweeps halts f (((Subtree.preorderAll slots).map Subtree.id).foldl (renameAt f) counted) stack
        result →
      Sweeps halts f counted
        ((slots.map (Option.map Subtree.id)).reduceOption.reverse ++ stack) result
  | [], _, _, _, hrest => hrest
  | none :: slots, counted, stack, h, hrest => @sweeps_slots hsteady slots counted stack h hrest
  | some s :: slots, counted, stack, h, hrest => by
    -- The last child comes first, so what is done to the others is done after that.
    rw [Subtree.preorderAll, List.map_append, foldl_renameAt_append, List.foldl_append] at hrest
    rw [List.map_cons, Option.map_some, List.reduceOption_cons_of_some, List.reverse_cons,
      List.append_assoc]
    refine sweeps_slots hsteady (fun n hn => h n (List.mem_append_right _ hn)) ?_
    refine sweeps_subtree hsteady (fun n hn => ?_) hrest
    exact (h n (List.mem_append_left _ hn)).foldl_renameAt hsteady _
end

mutual
/-- A search looks for the name in a node and all that hangs below it, and then in the rest of its
stack. -/
theorem seeks_subtree : ∀ {s : Subtree} {stack : List NodeId} {found : Bool},
    (∀ n ∈ s.preorder, ∃ place, t.node n.id = n.top place) → t.Seeks name stack found →
      t.Seeks name (s.id :: stack) (s.mentions name || found)
  | .node id kind value slots, stack, found, h, hrest => by
    obtain ⟨place, hnode⟩ := h _ List.mem_cons_self
    have hvalue : t.value id = value := congrArg Node.value hnode
    have hslots : t.slots id = slots.map (Option.map Subtree.id) := congrArg Node.slots hnode
    change t.Seeks name (id :: stack) (decide (value = some (.name name)) ||
      (Subtree.preorderAll slots).any _ || found)
    by_cases hname : value = some (.name name)
    · rw [decide_eq_true hname]
      exact .hit (hvalue.trans hname)
    · rw [decide_eq_false hname, Bool.false_or]
      refine .miss (hvalue ▸ hname) ?_
      rw [hslots]
      exact seeks_slots (fun n hn => h n (List.mem_cons_of_mem _ hn)) hrest
theorem seeks_slots : ∀ {slots : List (Option Subtree)} {stack : List NodeId} {found : Bool},
    (∀ n ∈ Subtree.preorderAll slots, ∃ place, t.node n.id = n.top place) →
      t.Seeks name stack found →
      t.Seeks name ((slots.map (Option.map Subtree.id)).reduceOption.reverse ++ stack)
        ((Subtree.preorderAll slots).any (fun n => n.value = some (.name name)) || found)
  | [], _, _, _, hrest => hrest
  | none :: slots, stack, found, h, hrest => @seeks_slots slots stack found h hrest
  | some s :: slots, stack, found, h, hrest => by
    rw [List.map_cons, Option.map_some, List.reduceOption_cons_of_some, List.reverse_cons,
      List.append_assoc, Subtree.preorderAll, List.any_append, Bool.or_comm (s.preorder.any _),
      Bool.or_assoc]
    refine seeks_slots (fun n hn => h n (List.mem_append_right _ hn)) ?_
    exact seeks_subtree (fun n hn => h n (List.mem_append_left _ hn)) hrest
end

/-! ### Names below a live node -/

/-- A tree below its root, in which the nodes have as many slots as their kinds own, and constants
alone hold values. -/
structure WellFormed (t : Tree) : Prop extends t.Rooted where
  length_slots {id : NodeId} (h : t.isLive id = true) : (t.slots id).length = (t.kind id).arity
  kind_eq {id : NodeId} {v : Value} (h : t.isLive id = true) (hvalue : t.value id = some v) :
    t.kind id = .constant

/-- Names are changed at the leaves of the expression below `top`, and nothing else is. -/
structure RenamesBelow (t : Tree) (top : NodeId) (hit : String → Bool) (new : String → String)
    (out : Nat × Tree) : Prop where
  /-- Every leaf with a text that is hit gets its new text. -/
  exprAt_eq : out.2.exprAt top =
    (t.exprAt top).mapLeaves fun text => if hit text then new text else text
  /-- The answer is the number of these leaves. -/
  count_eq : out.1 = (t.exprAt top).leafNames.countP hit
  root_eq : out.2.root = t.root
  size_eq : out.2.nodes.size = t.nodes.size
  /-- No kind changes, no link, and what is live. -/
  node_eq (id : NodeId) : out.2.node id = { t.node id with value := out.2.value id }
  /-- What cannot be reached from `top` is as it was. -/
  node_outside {id : NodeId} (h : ∀ way, t.follow top way ≠ some id) : out.2.node id = t.node id

/-- Where leaves are rewritten, a pass halts at constants. -/
def atConstant (t : Tree) (id : NodeId) : Bool :=
  t.kind id = .constant

/-- Where columns are qualified, a pass halts at names. -/
def atName (t : Tree) (id : NodeId) : Bool :=
  ((t.value id).bind Value.asName?).isSome

variable {c : Contract} {top : NodeId} {s : Subtree} {place : Option Place} {m : Records}
variable {hit : String → Bool} {new : String → String}

theorem Intact.wellFormed (h : t.Intact c) : t.WellFormed := by
  have hlinks := h.consistent_links
  obtain ⟨s, graves, hholds, hreg, _⟩ := h
  refine ⟨hlinks.rooted, fun hlive => (hlinks.slots_live hlive).1, fun hlive hvalue => ?_⟩
  obtain ⟨path, below, rfl, rfl⟩ := hholds.exists_path_of_isLive hlive
  rw [hholds.stores_foot.value_eq] at hvalue
  rw [hholds.stores_foot.kind_eq]
  exact hreg.foot.proper.value_iff.mp (by rw [hvalue]; rfl)

/-- Whatever is done to a tree, it is well formed. -/
theorem Reached.wellFormed (h : Reached c t) : t.WellFormed :=
  h.intact.wellFormed

/-- A well-formed tree stores what hangs below a live node. -/
theorem WellFormed.exists_stores (h : t.WellFormed) (htop : t.isLive top = true) :
    ∃ (s : Subtree) (place : Option Place) (m : Records), s.id = top ∧
      t.Stores (s.records place + m) ∧
      ∀ n ∈ s.preorder, n.ValuedAtLeaf ∧ ∃ place, t.node n.id = n.top place := by
  obtain ⟨graves, hholds⟩ := h.exists_holds
  obtain ⟨path, s, hfill, rfl⟩ := hholds.exists_path_of_isLive htop
  rw [← hfill] at hholds
  refine ⟨s, path.place?, _, rfl, hholds.stores_foot, fun n hn => ?_⟩
  obtain ⟨lower, rfl⟩ := Subtree.exists_path_of_mem_preorder hn
  rw [← Path.fill_append] at hholds
  have hlive := hholds.isLive_foot
  have hstores := hholds.stores_foot
  refine ⟨⟨fun hkind => ?_, fun hvalue => ?_⟩, _, hstores.node_top⟩
  · have hlength := h.length_slots hlive
    rw [hstores.slots_eq, hstores.kind_eq, hkind, List.length_map] at hlength
    exact List.length_eq_zero_iff.mp hlength
  · rw [← hstores.kind_eq]
    exact h.kind_eq hlive (hstores.value_eq.trans hvalue)

theorem isSome_due {n : Subtree} (hvalue : t.value n.id = n.value) :
    (due (change hit new) t n.id).isSome = (n.name?.map hit).getD false := by
  rw [due, hvalue, Value.bind_mapName?, Option.isSome_map]
  change (n.name?.bind (change hit new)).isSome = _
  cases n.name? with
  | none => rfl
  | some text => cases h : hit text <;> simp [change, h]

/-- The number of names that are changed is that of the leaves that are hit. -/
theorem Stores.count_renameBelow (h : t.Stores (s.records place + m))
    (hvalues : ∀ n ∈ s.preorder, t.value n.id = n.value) :
    (t.renameBelow s.id (change hit new)).1 = (s.preorder.filterMap Subtree.name?).countP hit := by
  rw [Tree.renameBelow, h.subtree_eq, count_foldl_renameAt h.nodup_ids, Nat.zero_add, Subtree.ids,
    List.countP_map, List.countP_filterMap]
  refine List.countP_congr fun n hn => ?_
  rw [Function.comp_apply, isSome_due (hvalues n hn)]

theorem WellFormed.renamesBelow (h : t.WellFormed) (htop : t.isLive top = true)
    (hit : String → Bool) (new : String → String) :
    t.RenamesBelow top hit new (t.renameBelow top (change hit new)) := by
  obtain ⟨s, place, m, rfl, hstores, hnodes⟩ := h.exists_stores htop
  have hleaf : ∀ n ∈ s.preorder, n.ValuedAtLeaf := fun n hn => (hnodes n hn).1
  have hafter := hstores.renameBelow (change hit new)
  constructor
  case exprAt_eq =>
    have hsubtree := hafter.subtree_eq
    rw [Subtree.mapNames_id] at hsubtree
    rw [exprAt, exprAt, hsubtree, hstores.subtree_eq, Subtree.toExpr_mapNames hleaf]
  case count_eq =>
    rw [exprAt, hstores.subtree_eq, Subtree.leafNames_toExpr hleaf]
    refine hstores.count_renameBelow fun n hn => ?_
    obtain ⟨_, _, htop⟩ := hnodes n hn
    exact congrArg Node.value htop
  case root_eq => exact root_renameBelow ..
  case size_eq => exact size_renameBelow ..
  case node_eq =>
    intro id
    rw [value, hstores.node_renameBelow]
    split <;> rfl
  case node_outside =>
    intro id hid
    rw [hstores.node_renameBelow, if_neg]
    intro hmem
    obtain ⟨way, hway⟩ := h.isLive_iff.mp htop
    rw [← hstores.subtree_eq, h.mem_ids_subtree hway] at hmem
    obtain ⟨below, hbelow⟩ := hmem
    exact hid below hbelow

theorem WellFormed.mentions_iff (h : t.WellFormed) (htop : t.isLive top = true) (name : String) :
    t.mentions top name = true ↔ name ∈ (t.exprAt top).leafNames := by
  obtain ⟨s, place, m, rfl, hstores, hnodes⟩ := h.exists_stores htop
  rw [hstores.mentions_eq, exprAt, hstores.subtree_eq,
    Subtree.leafNames_toExpr fun n hn => (hnodes n hn).1]
  exact Subtree.mentions_iff

theorem replaceNames_eq (t : Tree) (top : NodeId) (old new : String) :
    t.replaceNames top old new = t.renameBelow top (change (· = old) fun _ => new) := by
  refine congrArg (t.renameBelow top) (funext fun text => ?_)
  simp only [change, decide_eq_true_eq]

/-- A name that has been replaced by another is not there any more. -/
theorem WellFormed.mentions_replaceNames (h : t.WellFormed) (htop : t.isLive top = true)
    {old new : String} (hne : old ≠ new) :
    (t.replaceNames top old new).2.mentions top old = false := by
  obtain ⟨s, place, m, rfl, hstores, _⟩ := h.exists_stores htop
  have hmentions := (hstores.renameBelow (change (· = old) fun _ => new)).mentions_eq old
  rw [Subtree.mapNames_id] at hmentions
  rw [replaceNames_eq, hmentions, ← Bool.not_eq_true, Subtree.mentions_iff,
    Subtree.names_mapNames, List.mem_map]
  rintro ⟨text, _, htext⟩
  by_cases hold : text = old
  · rw [if_pos (decide_eq_true hold)] at htext
    exact hne htext.symm
  · rw [if_neg (by simpa using hold)] at htext
    exact hold htext

theorem steady_atConstant : Steady atConstant := by
  intro f counted id other
  rw [atConstant, kind, node_renameAt]
  split <;> rfl

theorem steady_atName : Steady atName := by
  intro f counted id other
  rw [atName, value, node_renameAt]
  split
  · exact (congrArg Option.isSome (Subtree.asName_renamed f _)).trans Option.isSome_map
  · rfl

theorem passes_atConstant {n : Subtree} (hleaf : n.ValuedAtLeaf)
    (hnode : t.node n.id = n.top place) : Passes atConstant t n := by
  have hkind : t.kind n.id = n.kind := congrArg Node.kind hnode
  have hvalue : t.value n.id = n.value := congrArg Node.value hnode
  refine ⟨congrArg Node.slots hnode, fun hhalts => ?_, fun hgoes => ?_⟩
  · exact hleaf.slots_eq (hkind ▸ of_decide_eq_true hhalts)
  · have hne : n.kind ≠ .constant := hkind ▸ of_decide_eq_false hgoes
    rw [hvalue, Option.eq_none_iff_forall_ne_some.mpr fun v hv => hne (hleaf.kind_eq hv)]
    rfl

theorem passes_atName {n : Subtree} (hleaf : n.ValuedAtLeaf)
    (hnode : t.node n.id = n.top place) : Passes atName t n := by
  have hvalue : t.value n.id = n.value := congrArg Node.value hnode
  refine ⟨congrArg Node.slots hnode, fun hhalts => ?_, fun hgoes => ?_⟩
  · rw [atName, hvalue] at hhalts
    obtain ⟨v, hv, _⟩ := Option.bind_eq_some_iff.mp (Option.eq_some_of_isSome hhalts)
    exact hleaf.slots_eq (hleaf.kind_eq hv)
  · exact Option.not_isSome_iff_eq_none.mp (Bool.not_eq_true _ ▸ hgoes)

/-- A pass with a stack ends, with the names changed below the node that it began with. -/
theorem WellFormed.sweeps_iff (h : t.WellFormed) (htop : t.isLive top = true)
    (hsteady : Steady halts) (hpasses : ∀ (n : Subtree) (place : Option Place), n.ValuedAtLeaf →
      t.node n.id = n.top place → Passes halts t n) :
    Sweeps halts f (0, t) [top] result ↔ result = t.renameBelow top f := by
  obtain ⟨s, place, m, rfl, hstores, hnodes⟩ := h.exists_stores htop
  have hsweeps : Sweeps halts f (0, t) [s.id] (t.renameBelow s.id f) := by
    rw [renameBelow, hstores.subtree_eq]
    refine sweeps_subtree hsteady (fun n hn => ?_) .done
    obtain ⟨hleaf, place, hnode⟩ := hnodes n hn
    exact hpasses n place hleaf hnode
  constructor
  · exact fun hresult => hresult.unique hsweeps
  · rintro rfl
    exact hsweeps

/-- A search with a stack ends, with the answer whether the name is there. -/
theorem WellFormed.seeks_iff (h : t.WellFormed) (htop : t.isLive top = true) :
    t.Seeks name [top] found ↔ found = t.mentions top name := by
  obtain ⟨s, place, m, rfl, hstores, hnodes⟩ := h.exists_stores htop
  have hseeks : t.Seeks name [s.id] (t.mentions s.id name) := by
    have hdone : t.Seeks name [] false := .done
    have hsubtree := seeks_subtree (fun n hn => (hnodes n hn).2) hdone
    rwa [Bool.or_false, ← hstores.mentions_eq] at hsubtree
  constructor
  · exact fun hfound => hfound.unique hseeks
  · rintro rfl
    exact hseeks

/-- To replace a name and to qualify columns changes the leaves that the names and columns are at,
and counts them. A name is mentioned if it is at a leaf, and so no longer once it is replaced. Both
are what a pass with a stack comes to, and a mention is what a search with one comes to. -/
theorem WellFormed.renames_leaves (h : t.WellFormed) (htop : t.isLive top = true)
    (old new asName name : String) :
    t.RenamesBelow top (· = old) (fun _ => new) (t.replaceNames top old new) ∧
    t.RenamesBelow top Text.isColumnReference (Columns.qualify asName)
      (t.qualifyNames top asName) ∧
    (t.mentions top name = true ↔ name ∈ (t.exprAt top).leafNames) ∧
    (old ≠ new → (t.replaceNames top old new).2.mentions top old = false) ∧
    (∀ out, Sweeps atConstant (change (· = old) fun _ => new) (0, t) [top]
      out ↔ out = t.replaceNames top old new) ∧
    (∀ out, Sweeps atName (change Text.isColumnReference (Columns.qualify asName)) (0, t) [top]
      out ↔ out = t.qualifyNames top asName) ∧
    ∀ found, t.Seeks name [top] found ↔ found = t.mentions top name := by
  refine ⟨?_, h.renamesBelow htop _ _, h.mentions_iff htop name, h.mentions_replaceNames htop,
    fun out => ?_, fun out => ?_, fun found => h.seeks_iff htop⟩
  · rw [replaceNames_eq]
    exact h.renamesBelow htop _ _
  · rw [replaceNames_eq]
    exact h.sweeps_iff htop steady_atConstant fun _ _ => passes_atConstant
  · exact h.sweeps_iff htop steady_atName fun _ _ => passes_atName

/-- In a predicate on a column and a number, the column is replaced or qualified. -/
theorem WellFormed.renames_leaves_predicate :
    let p := Expr.op .and [.op .less [.name "a", .name "1"], .name "a"]
    ∃ t, ofExpr (.assign "T" (.condition p (.input1 "t"))) = .ok t ∧ t.WellFormed ∧
      t.isLive 5 = true ∧ t.exprAt 5 = p ∧
      (t.replaceNames 5 "a" "b").1 = 2 ∧
      (t.replaceNames 5 "a" "b").2.exprAt 5 =
        .op .and [.op .less [.name "b", .name "1"], .name "b"] ∧
      t.mentions 5 "a" = true ∧ (t.replaceNames 5 "a" "b").2.mentions 5 "a" = false ∧
      (t.qualifyNames 5 "A").1 = 2 ∧
      (t.qualifyNames 5 "A").2.exprAt 5 =
        .op .and [.op .less [.name "A.a", .name "1"], .name "A.a"] ∧
      Sweeps atConstant (change (· = "a") fun _ => "b") (0, t) [5] (t.replaceNames 5 "a" "b") ∧
      Sweeps atName (change Text.isColumnReference (Columns.qualify "A")) (0, t) [5]
        (t.qualifyNames 5 "A") ∧
      t.Seeks "a" [5] true := by
  intro p
  let t := planted (.assign "T" (.condition p (.input1 "t")))
  have ht : ofExpr (.assign "T" (.condition p (.input1 "t"))) = .ok t :=
    ofExpr_eq_ok.mpr ⟨rfl, rfl⟩
  have h : t.WellFormed := (Reached.built (c := .strict) ht).wellFormed
  have hlive : t.isLive 5 = true := by decide +kernel
  have hexpr : t.exprAt 5 = p := by decide +kernel
  obtain ⟨hreplaces, hqualifies, hmentions, hgone, hrewritten, hqualified, hsought⟩ :=
    h.renames_leaves hlive "a" "b" "A" "a"
  have hmentioned : t.mentions 5 "a" = true := hmentions.mpr (hexpr ▸ by decide)
  refine ⟨t, ht, h, hlive, hexpr, ?_, ?_, hmentioned, hgone (by decide), ?_, ?_,
    (hrewritten _).mpr rfl, (hqualified _).mpr rfl, (hsought true).mpr hmentioned.symm⟩
  · rw [hreplaces.count_eq, hexpr]
    decide
  · rw [hreplaces.exprAt_eq, hexpr]
    decide
  · rw [hqualifies.count_eq, hexpr]
    decide +kernel
  · rw [hqualifies.exprAt_eq, hexpr]
    decide +kernel

end Tree

end FlatSelect
