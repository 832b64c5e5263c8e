import FlatSelect.Proofs.Moves
import FlatSelect.Select
import FlatSelect.Transfer

/-!
# Crossing a parent

What a transfer does, said of subtrees alone: from the node that crosses and the parent that it
crosses, with what stands in the parent's other slots, to the two of them afterwards. `cross` has no
tree to look things up in, so it shows what a transfer depends on and what it can change.

`Stores.apply` says that a transfer applied to a tree does to the records of the two subtrees what
`cross` does to the subtrees, fails where and as `cross` fails, and touches nothing else.
-/

namespace FlatSelect

namespace Subtree

/-- A subtree with something else in a slot. -/
def setChild (s : Subtree) (slot : Nat) (hole : Option Subtree) : Subtree :=
  .node s.id s.kind s.value (s.slots.set slot hole)

/-- A subtree with another value at the top. -/
def setValue (s : Subtree) (value : Value) : Subtree :=
  .node s.id s.kind (some value) s.slots

/-- A subtree with another parameter, the value in slot 0. -/
def setParameter (s : Subtree) (value : Value) : Subtree :=
  match s.child 0 with
  | none => s
  | some leaf => s.setChild 0 (some (leaf.setValue value))

/-- The value that takes the place of `value` where names are changed by `f`. -/
def renamed (f : String → Option String) (value : Option Value) : Option Value :=
  (value.bind (·.mapName? f)).or value

mutual
/-- Changes the names for which `f` has a new one. -/
def mapNames (f : String → Option String) : Subtree → Subtree
  | .node id kind value slots => .node id kind (renamed f value) (mapNamesIn f slots)
/-- Changes the names in several slots. -/
def mapNamesIn (f : String → Option String) : List (Option Subtree) → List (Option Subtree)
  | [] => []
  | none :: rest => none :: mapNamesIn f rest
  | some s :: rest => some (s.mapNames f) :: mapNamesIn f rest
end

/-- The name that a branch of a join goes by. -/
def branchAlias? (s : Subtree) : Option String :=
  match s.kind with
  | .renameAll | .input1 => (s.slotValue 0).bind Value.asName?
  | .constant => s.value.bind Value.asName?
  | _ => none

/-- The wildcards that stand for all columns of the branches beside a slot. -/
def siblingWildcards (s : Subtree) (slot : Nat) : List String :=
  (s.slots.zipIdx.filter fun (_, i) => i ≠ slot).filterMap fun (branch, _) =>
    (branch.bind branchAlias?).map (Columns.qualify · "*")

/-- Whether a name stands in a subtree. -/
def mentions (s : Subtree) (name : String) : Bool :=
  s.preorder.any fun below => below.value = some (.name name)

/-- The name that a branch goes by, which it has to have. -/
def branchAlias (s : Subtree) : Except Error String :=
  match s.branchAlias? with
  | some asName => .ok asName
  | none => .error (.malformedTree .noBranchAlias)

/-- The predicate of a condition. -/
def predicate (s : Subtree) : Except Error Subtree :=
  match s.child 0 with
  | some top => .ok top
  | none => .error (.malformedTree .noPredicate)

end Subtree

/-- How a node and the parent that it crosses are left. -/
inductive Crossed where
  /-- The node is above the parent now. -/
  | rises (node parent : Subtree)
  /-- Only the parent is left. -/
  | absorbed (parent : Subtree)

namespace Transfer

/-- What a transfer makes of a node and the parent that it crosses out of `slot`. A node that has to
be made gets the number `fresh`. -/
def cross (fresh : NodeId) (node parent : Subtree) (slot : Nat) :
    Transfer → Except Error Crossed
  | pass => return .rises node parent
  | qualifyRename => do
    let asName ← parent.branchAlias
    let (new, old) ← node.renamePair
    let pair := .rename (Columns.qualify asName new) (Columns.qualify asName old)
    return .rises (node.setParameter pair) parent
  | qualifyProjection => do
    let asName ← parent.branchAlias
    let entries ← node.columns
    return .rises (node.setParameter (.columns (entries.map (Columns.qualify asName)))) parent
  | qualifyCondition => do
    let asName ← parent.branchAlias
    let top ← node.predicate
    let qualified := top.mapNames fun text =>
      if Text.isColumnReference text then some (Columns.qualify asName text) else none
    return .rises (node.setChild 0 (some qualified)) parent
  | renameInCondition => do
    let (new, old) ← node.renamePair
    let top ← parent.predicate
    let replaced := top.mapNames fun text => if text = new then some old else none
    return .rises node (parent.setChild 0 (some replaced))
  | renameInProjection => do
    let (new, old) ← node.renamePair
    let entries ← parent.columns
    match Columns.foldRename? entries new old with
    | none => return .absorbed parent
    | some entries => return .rises node (parent.setParameter (.columns entries))
  | renameInSource => do
    let (new, old) ← node.renamePair
    let (asName, source) ← parent.derivedColumn
    let source := if source = new then old else source
    return .rises node (parent.setParameter (.derived asName source))
  | deriveOverProjection => do
    let (asName, _) ← node.derivedColumn
    let entries ← parent.columns
    let left := parent.setParameter (.columns (Columns.withoutDerived entries asName))
    return if Columns.selectDerived entries asName then .rises node left else .absorbed left
  | deriveOverCondition => do
    let (asName, _) ← node.derivedColumn
    let top ← parent.predicate
    if top.mentions asName then .error (.nonCanonicalizable (.columnRead asName))
    else return .rises node parent
  | widenProjection => do
    let entries ← node.columns
    let widened := entries ++ parent.siblingWildcards slot
    return .rises (node.setParameter (.columns widened)) parent
  | mergeProjections => do
    let inner ← node.columns
    let outer ← parent.columns
    return .absorbed (parent.setParameter (.columns (Columns.intersect inner outer)))
  | conjoinConditions => do
    let outer ← parent.predicate
    let inner ← node.predicate
    return .absorbed
      (parent.setChild 0 (some (.node fresh .and none [some outer, some inner])))

/-- A rename that crosses a projection is folded into the list, or the list has no use for it. -/
theorem cross_renameInProjection {fresh : NodeId} {node parent : Subtree} {slot : Nat}
    {new old : String} {entries : List String} (hpair : node.renamePair = .ok (new, old))
    (hentries : parent.columns = .ok entries) :
    renameInProjection.cross fresh node parent slot =
      .ok ((Columns.foldRename? entries new old).elim (.absorbed parent) fun folded =>
        .rises node (parent.setParameter (.columns folded))) := by
  simp only [cross, hpair, hentries, bind, Except.bind]
  cases Columns.foldRename? entries new old <;> rfl

/-- What is left of a node that a transfer absorbs, until it is removed. -/
def remnant (node : Subtree) : Transfer → Subtree
  | conjoinConditions => node.setChild 0 none
  | _ => node

@[simp] theorem remnant_id (node : Subtree) (rule : Transfer) :
    (rule.remnant node).id = node.id := by
  cases rule <;> rfl

end Transfer

namespace Subtree

theorem setChild_fill (f : Frame) (old new : Option Subtree) :
    (f.fill old).setChild f.slot new = f.fill new := by
  simp [setChild, Frame.fill, Subtree.slots, Subtree.id, Subtree.kind, Subtree.value, Frame.slot]

@[simp] theorem setChild_id (s : Subtree) (slot : Nat) (hole : Option Subtree) :
    (s.setChild slot hole).id = s.id := rfl

theorem setChild_slots (s : Subtree) (slot : Nat) (hole : Option Subtree) :
    (s.setChild slot hole).slots = s.slots.set slot hole := rfl

@[simp] theorem setChild_kind (s : Subtree) (slot : Nat) (hole : Option Subtree) :
    (s.setChild slot hole).kind = s.kind := rfl

@[simp] theorem setParameter_id (s : Subtree) (value : Value) :
    (s.setParameter value).id = s.id := by
  unfold setParameter
  split <;> rfl

@[simp] theorem setParameter_kind (s : Subtree) (value : Value) :
    (s.setParameter value).kind = s.kind := by
  unfold setParameter
  split <;> rfl

/-- What is stored for a node whose name is changed by `f`. -/
def mapNode (f : String → Option String) (n : Node) : Node :=
  { n with value := renamed f n.value }

@[simp] theorem mapNames_id (f : String → Option String) (s : Subtree) :
    (s.mapNames f).id = s.id := by
  cases s
  rfl

theorem map_id_mapNamesIn (f : String → Option String) (slots : List (Option Subtree)) :
    (mapNamesIn f slots).map (Option.map id) = slots.map (Option.map id) := by
  induction slots with
  | nil => rfl
  | cons child rest ih => cases child <;> simp [mapNamesIn, ih]

mutual
theorem records_mapNames (f : String → Option String) (place : Option Place) : ∀ s : Subtree,
    (s.mapNames f).records place = (s.records place).map fun e => (e.1, mapNode f e.2)
  | .node id kind value slots => by
    have htop : top place (Subtree.node id kind (renamed f value) (mapNamesIn f slots)) =
        mapNode f (top place (.node id kind value slots)) := by
      simp [top, mapNode, Subtree.kind, Subtree.value, Subtree.slots, map_id_mapNamesIn]
    rw [mapNames, records, records, Multiset.map_add, Multiset.map_singleton, htop,
      recordsIn_mapNamesIn f id 0 slots]
theorem recordsIn_mapNamesIn (f : String → Option String) (parent : NodeId) (slot : Nat) :
    ∀ slots : List (Option Subtree), recordsIn parent slot (mapNamesIn f slots) =
      (recordsIn parent slot slots).map fun e => (e.1, mapNode f e.2)
  | [] => rfl
  | none :: rest => recordsIn_mapNamesIn f parent (slot + 1) rest
  | some s :: rest => by
    rw [mapNamesIn, recordsIn, recordsIn, Multiset.map_add,
      records_mapNames f (some ⟨parent, slot⟩) s, recordsIn_mapNamesIn f parent (slot + 1) rest]
end

end Subtree

namespace Tree

/-! ### Changing names -/

theorem node_setValue (t : Tree) (id other : NodeId) (value : Value) :
    (t.setValue id value).node other =
      if id = other ∧ other < t.nodes.size then { t.node other with value := some value }
      else t.node other :=
  node_update ..

theorem node_renameAt (f : String → Option String) (counted : Nat × Tree) (id other : NodeId) :
    (renameAt f counted id).2.node other =
      if id = other then Subtree.mapNode f (counted.2.node other) else counted.2.node other := by
  have hvalue : counted.2.value id = (counted.2.node id).value := rfl
  unfold renameAt
  split
  case h_1 hnone =>
    by_cases h : id = other
    · subst h
      rw [hvalue] at hnone
      simp [Subtree.mapNode, Subtree.renamed, hnone]
    · simp [h]
  case h_2 value hsome =>
    rw [hvalue] at hsome
    simp only [node_setValue]
    by_cases h : id = other
    · subst h
      have hlt : id < counted.2.nodes.size := by
        by_contra hle
        rw [node_absent (Nat.le_of_not_lt hle)] at hsome
        simp [Node.absent] at hsome
      simp [Subtree.mapNode, Subtree.renamed, hsome, hlt]
    · simp [h]

theorem node_foldl_renameAt (f : String → Option String) {ids : List NodeId} (hids : ids.Nodup)
    (counted : Nat × Tree) (id : NodeId) :
    (ids.foldl (renameAt f) counted).2.node id =
      if id ∈ ids then Subtree.mapNode f (counted.2.node id) else counted.2.node id := by
  induction ids generalizing counted with
  | nil => simp
  | cons head rest ih =>
      obtain ⟨hhead, hrest⟩ := List.nodup_cons.mp hids
      rw [List.foldl_cons, ih hrest, node_renameAt]
      by_cases h : head = id
      · subst h
        simp [hhead]
      · have h' : id ≠ head := by
          intro he
          exact h he.symm
        simp [h, h']

@[simp] theorem root_renameBelow (t : Tree) (top : NodeId) (f : String → Option String) :
    (t.renameBelow top f).2.root = t.root := by
  have hfold : ∀ (ids : List NodeId) (counted : Nat × Tree),
      (ids.foldl (renameAt f) counted).2.root = counted.2.root := by
    intro ids
    induction ids with
    | nil => exact fun _ => rfl
    | cons head rest ih =>
        intro counted
        rw [List.foldl_cons, ih]
        unfold renameAt
        split <;> rfl
  exact hfold _ _

@[simp] theorem size_renameBelow (t : Tree) (top : NodeId) (f : String → Option String) :
    (t.renameBelow top f).2.nodes.size = t.nodes.size := by
  have hfold : ∀ (ids : List NodeId) (counted : Nat × Tree),
      (ids.foldl (renameAt f) counted).2.nodes.size = counted.2.nodes.size := by
    intro ids
    induction ids with
    | nil => exact fun _ => rfl
    | cons head rest ih =>
        intro counted
        rw [List.foldl_cons, ih]
        unfold renameAt
        split <;> simp
  exact hfold _ _

@[simp] theorem root_setParameter (t : Tree) (id : NodeId) (value : Value) :
    (t.setParameter id value).root = t.root := by
  unfold setParameter
  cases t.child id 0 <;> simp

@[simp] theorem size_setParameter (t : Tree) (id : NodeId) (value : Value) :
    (t.setParameter id value).nodes.size = t.nodes.size := by
  unfold setParameter
  cases t.child id 0 <;> simp

namespace Stores

variable {t : Tree} {m : Records} {s : Subtree} {place : Option Place}

theorem setValue_subtree (h : t.Stores (s.records place + m)) (value : Value) :
    (t.setValue s.id value).Stores ((s.setValue value).records place + m) := by
  have hs : t.Stores ({(s.id, s.top place)} + (s.inner + m)) :=
    h.congr (by rw [Subtree.records_eq]; abel)
  refine (hs.setValue value).congr ?_
  rw [Subtree.records_eq]
  simp only [Subtree.top, Subtree.setValue, Subtree.inner, Subtree.id, Subtree.kind,
    Subtree.value, Subtree.slots]
  abel

theorem setParameter_subtree (h : t.Stores (s.records place + m)) (value : Value) :
    (t.setParameter s.id value).Stores ((s.setParameter value).records place + m) := by
  cases hc : s.child 0 with
  | none =>
      have hnone : t.child s.id 0 = none := by rw [h.child_eq, hc]; rfl
      simpa [Tree.setParameter, Subtree.setParameter, hnone, hc] using h
  | some leaf =>
      have hsome : t.child s.id 0 = some leaf.id := by rw [h.child_eq, hc]; rfl
      obtain ⟨f, rfl, hslot⟩ := Subtree.exists_frame hc
      have hset := h.below.setValue_subtree value
      have hs : (f.fill (some leaf)).setParameter value =
          f.fill (some (leaf.setValue value)) := by
        simp only [Subtree.setParameter, hc]
        rw [← hslot, Subtree.setChild_fill]
      rw [Tree.setParameter, hsome, hs]
      refine hset.congr ?_
      rw [Frame.records_fill_some]
      simp only [Subtree.setValue, Subtree.id]
      abel

theorem node_renameBelow (h : t.Stores (s.records place + m)) (f : String → Option String)
    (id : NodeId) : (t.renameBelow s.id f).2.node id =
      if id ∈ s.ids then Subtree.mapNode f (t.node id) else t.node id := by
  rw [Tree.renameBelow, h.subtree_eq]
  exact node_foldl_renameAt f h.nodup_ids (0, t) id

/-- Names are changed below a node and nowhere else. -/
theorem renameBelow (h : t.Stores (s.records place + m)) (f : String → Option String) :
    (t.renameBelow s.id f).2.Stores ((s.mapNames f).records place + m) := by
  have hkey : ∀ {e}, e ∈ s.records place → e.1 ∈ s.ids := by
    intro e he
    have hmem := Multiset.mem_map_of_mem Prod.fst he
    rw [Subtree.keys_records] at hmem
    exact Multiset.mem_coe.mp hmem
  have hout : ∀ {e}, e ∈ m → e.1 ∉ s.ids := by
    intro e he hin
    have hmem : e.1 ∈ (s.records place).map Prod.fst := by
      rw [Subtree.keys_records]
      exact Multiset.mem_coe.mpr hin
    obtain ⟨e', he', heq⟩ := Multiset.mem_map.mp hmem
    exact h.key_ne he' he heq
  have hkeys : ((s.mapNames f).records place + m).map Prod.fst =
      (s.records place + m).map Prod.fst := by
    rw [Subtree.records_mapNames, Multiset.map_add, Multiset.map_add, Multiset.map_map]
    rfl
  refine ⟨hkeys ▸ h.nodup, ?_, ?_⟩
  · intro e he
    rw [h.node_renameBelow]
    rcases Multiset.mem_add.mp he with he | he
    · rw [Subtree.records_mapNames] at he
      obtain ⟨e', he', rfl⟩ := Multiset.mem_map.mp he
      rw [if_pos (hkey he'), h.node_eq e' (Multiset.mem_add.mpr (.inl he'))]
    · rw [if_neg (hout he), h.node_eq e (Multiset.mem_add.mpr (.inr he))]
  · intro id
    rw [hkeys, size_renameBelow]
    exact h.mem_keys id

theorem branchAlias?_eq (h : t.Stores (s.records place + m)) :
    t.branchAlias? s.id = s.branchAlias? := by
  rw [Tree.branchAlias?, h.kind_eq, h.slotValue_eq, h.value_eq]
  rfl

theorem siblingWildcards_eq (h : t.Stores (s.records place + m)) (slot : Nat) :
    t.siblingWildcards ⟨s.id, slot⟩ = s.siblingWildcards slot := by
  have halias : ∀ c, some c ∈ s.slots → t.branchAlias? c.id = c.branchAlias? := by
    intro c hc
    obtain ⟨i, hi⟩ := List.mem_iff_getElem?.mp hc
    obtain ⟨_, hbelow⟩ := h.exists_below (show s.child i = some c by rw [Subtree.child, hi]; rfl)
    exact hbelow.branchAlias?_eq
  rw [Tree.siblingWildcards, Tree.occupied, Subtree.siblingWildcards, h.slots_eq]
  generalize s.slots = slots at halias
  generalize 0 = start
  induction slots generalizing start with
  | nil => rfl
  | cons child rest ih =>
      have hrest := ih (fun c hc => halias c (List.mem_cons_of_mem _ hc)) (start + 1)
      cases child with
      | none => by_cases hs : start = slot <;> simpa [List.zipIdx_cons, hs] using hrest
      | some c =>
          have hc := halias c List.mem_cons_self
          by_cases hs : start = slot
          · simpa [List.zipIdx_cons, hs] using hrest
          · cases ha : c.branchAlias? <;> rw [ha] at hc <;>
              simpa [List.zipIdx_cons, hs, hc, ha] using hrest

theorem mentions_eq (h : t.Stores (s.records place + m)) (name : String) :
    t.mentions s.id name = s.mentions name := by
  rw [Tree.mentions, Subtree.mentions, h.subtree_eq]

end Stores

end Tree

/-! ### What a crossing can change -/

/-- A subtree whose names in slot 0 may be others, or its parameter another one of its form. -/
inductive Subtree.Reworded (s : Subtree) : Subtree → Prop
  | same : Reworded s s
  | parameter {old value : Value} (hold : s.slotValue 0 = some old)
    (hform : value.form = old.form) : Reworded s (s.setParameter value)
  | predicate {top : Subtree} (f : String → Option String) (h : s.child 0 = some top) :
    Reworded s (s.setChild 0 (some (top.mapNames f)))

namespace Subtree.Reworded

variable {s s' : Subtree}

theorem id_eq (h : s.Reworded s') : s'.id = s.id := by
  cases h <;> simp

theorem kind_eq (h : s.Reworded s') : s'.kind = s.kind := by
  cases h <;> simp

theorem slot_eq (h : s.Reworded s') {slot : Nat} (hs : slot ≠ 0) :
    s'.slots[slot]? = s.slots[slot]? := by
  have hset : ∀ hole, (s.setChild 0 hole).slots[slot]? = s.slots[slot]? := by
    intro hole
    rw [Subtree.setChild_slots, List.getElem?_set_ne (Ne.symm hs)]
  cases h with
  | same => rfl
  | parameter =>
      unfold Subtree.setParameter
      split
      · rfl
      · exact hset _
  | predicate f h => exact hset _

end Subtree.Reworded

/-- What a transfer can come to. Two conditions become one in a new node; otherwise only names and
values in slot 0 change. A projection that meets a projection, and a condition that meets a
condition, never rises. -/
inductive Transfer.Comes (fresh : NodeId) (node parent : Subtree) : Transfer → Crossed → Prop
  | rises {rule : Transfer} {node' parent' : Subtree} (hnode : node.Reworded node')
    (hparent : parent.Reworded parent') (hmerge : rule ≠ .mergeProjections)
    (hconjoin : rule ≠ .conjoinConditions) : Comes fresh node parent rule (.rises node' parent')
  | absorbed {rule : Transfer} {parent' : Subtree} (hparent : parent.Reworded parent')
    (hconjoin : rule ≠ .conjoinConditions) : Comes fresh node parent rule (.absorbed parent')
  | conjoined {outer inner : Subtree} (houter : parent.child 0 = some outer)
    (hinner : node.child 0 = some inner) : Comes fresh node parent .conjoinConditions
      (.absorbed (parent.setChild 0 (some (.node fresh .and none [some outer, some inner]))))

theorem exists_of_bind_eq_ok {r : Except Error α} {f : α → Except Error β} {b : β}
    (h : r >>= f = .ok b) : ∃ a, r = .ok a ∧ f a = .ok b := by
  cases r with
  | error => exact absurd h (by simp [bind, Except.bind])
  | ok a => exact ⟨a, rfl, h⟩

/-- What a transfer can fail with: what it reads is not there, or a condition reads the column. -/
inductive Transfer.Fails : Error → Prop
  | malformed (cause : Malformation) : Fails (.malformedTree cause)
  | columnRead (asName : String) : Fails (.nonCanonicalizable (.columnRead asName))

namespace Transfer

theorem mem_table_of_between? {node parent : Kind} {rule : Transfer}
    (h : between? node parent = some rule) : (node, parent, rule) ∈ table := by
  obtain ⟨⟨n, p, r⟩, hfind, rfl⟩ := Option.map_eq_some_iff.mp h
  have hkinds : n = node ∧ p = parent := by simpa using List.find?_some hfind
  obtain ⟨rfl, rfl⟩ := hkinds
  exact List.mem_of_find?_eq_some hfind

/-- Only conditions are made into one. -/
theorem condition_of_conjoinConditions {node parent : Kind}
    (h : between? node parent = some .conjoinConditions) :
    node = .condition ∧ parent = .condition := by
  have hmem := mem_table_of_between? h
  simp only [table, List.mem_cons, Prod.mk.injEq, reduceCtorEq, and_false, false_or,
    List.not_mem_nil, or_false, and_true] at hmem
  exact hmem

/-- A parent that absorbs an operator keeps its kind and what it stands on. -/
theorem Comes.operand_eq {fresh : NodeId} {node parent parent' : Subtree} {rule : Transfer}
    (h : rule.Comes fresh node parent (.absorbed parent')) :
    parent'.kind = parent.kind ∧ parent'.slots[1]? = parent.slots[1]? := by
  cases h with
  | absorbed hreworded => exact ⟨hreworded.kind_eq, hreworded.slot_eq (by decide)⟩
  | conjoined =>
      refine ⟨rfl, ?_⟩
      rw [Subtree.setChild_slots, List.getElem?_set_ne (by decide)]

theorem Fails.of_bind {r : Except Error α} {f : α → Except Error β} {cause : Error}
    (h : r >>= f = .error cause) (hr : ∀ cause, r = .error cause → Fails cause)
    (hf : ∀ a, f a = .error cause → Fails cause) : Fails cause := by
  cases r with
  | error => exact hr cause (by cases h; rfl)
  | ok a => exact hf a h

theorem fails_of_branchAlias (s : Subtree) (cause : Error) (h : s.branchAlias = .error cause) :
    Fails cause := by
  unfold Subtree.branchAlias at h
  split at h <;> cases h
  exact .malformed _

theorem fails_of_predicate (s : Subtree) (cause : Error) (h : s.predicate = .error cause) :
    Fails cause := by
  unfold Subtree.predicate at h
  split at h <;> cases h
  exact .malformed _

theorem fails_of_renamePair (s : Subtree) (cause : Error) (h : s.renamePair = .error cause) :
    Fails cause := by
  unfold Subtree.renamePair at h
  split at h <;> cases h
  exact .malformed _

theorem fails_of_derivedColumn (s : Subtree) (cause : Error) (h : s.derivedColumn = .error cause) :
    Fails cause := by
  unfold Subtree.derivedColumn at h
  split at h <;> cases h
  exact .malformed _

theorem fails_of_columns (s : Subtree) (cause : Error) (h : s.columns = .error cause) :
    Fails cause := by
  unfold Subtree.columns at h
  split at h <;> cases h
  exact .malformed _

theorem fails_of_cross {fresh : NodeId} {node parent : Subtree} {slot : Nat} {rule : Transfer}
    {cause : Error} (h : rule.cross fresh node parent slot = .error cause) : Fails cause := by
  cases rule with
  | pass => cases h
  | qualifyRename =>
      refine .of_bind h (fails_of_branchAlias _) fun _ h => ?_
      exact .of_bind h (fails_of_renamePair _) fun _ h => nomatch h
  | qualifyProjection =>
      refine .of_bind h (fails_of_branchAlias _) fun _ h => ?_
      exact .of_bind h (fails_of_columns _) fun _ h => nomatch h
  | qualifyCondition =>
      refine .of_bind h (fails_of_branchAlias _) fun _ h => ?_
      exact .of_bind h (fails_of_predicate _) fun _ h => nomatch h
  | renameInCondition =>
      refine .of_bind h (fails_of_renamePair _) fun _ h => ?_
      exact .of_bind h (fails_of_predicate _) fun _ h => nomatch h
  | renameInProjection =>
      refine .of_bind h (fails_of_renamePair _) fun _ h => ?_
      refine .of_bind h (fails_of_columns _) fun _ h => ?_
      split at h <;> cases h
  | renameInSource =>
      refine .of_bind h (fails_of_renamePair _) fun _ h => ?_
      exact .of_bind h (fails_of_derivedColumn _) fun _ h => nomatch h
  | deriveOverProjection =>
      refine .of_bind h (fails_of_derivedColumn _) fun _ h => ?_
      exact .of_bind h (fails_of_columns _) fun _ h => nomatch h
  | deriveOverCondition =>
      refine .of_bind h (fails_of_derivedColumn _) fun _ h => ?_
      refine .of_bind h (fails_of_predicate _) fun _ h => ?_
      split at h <;> cases h
      exact .columnRead _
  | widenProjection => exact .of_bind h (fails_of_columns _) fun _ h => nomatch h
  | mergeProjections =>
      refine .of_bind h (fails_of_columns _) fun _ h => ?_
      exact .of_bind h (fails_of_columns _) fun _ h => nomatch h
  | conjoinConditions =>
      refine .of_bind h (fails_of_predicate _) fun _ h => ?_
      exact .of_bind h (fails_of_predicate _) fun _ h => nomatch h

end Transfer

namespace Subtree

variable {s : Subtree}

theorem child_of_predicate {top : Subtree} (h : s.predicate = .ok top) :
    s.child 0 = some top := by
  unfold predicate at h
  split at h
  case h_1 found hfound => rw [hfound, Except.ok.inj h]
  case h_2 => exact absurd h (by simp)

theorem slotValue_of_renamePair {pair : String × String} (h : s.renamePair = .ok pair) :
    s.slotValue 0 = some (.rename pair.1 pair.2) := by
  unfold renamePair at h
  split at h <;> cases h
  assumption

theorem slotValue_of_derivedColumn {column : String × String} (h : s.derivedColumn = .ok column) :
    s.slotValue 0 = some (.derived column.1 column.2) := by
  unfold derivedColumn at h
  split at h <;> cases h
  assumption

theorem slotValue_of_columns {entries : List String} (h : s.columns = .ok entries) :
    s.slotValue 0 = some (.columns entries) := by
  unfold columns at h
  split at h <;> cases h
  assumption

end Subtree

theorem Transfer.comes_of_cross {fresh : NodeId} {node parent : Subtree} {slot : Nat}
    {rule : Transfer} {result : Crossed} (h : rule.cross fresh node parent slot = .ok result) :
    rule.Comes fresh node parent result := by
  cases rule with
  | pass =>
      cases h
      exact .rises .same .same (by simp) (by simp)
  | qualifyRename =>
      obtain ⟨asName, _, h⟩ := exists_of_bind_eq_ok h
      obtain ⟨pair, hpair, h⟩ := exists_of_bind_eq_ok h
      cases h
      exact .rises (.parameter (Subtree.slotValue_of_renamePair hpair) rfl) .same (by simp)
        (by simp)
  | qualifyProjection =>
      obtain ⟨asName, _, h⟩ := exists_of_bind_eq_ok h
      obtain ⟨entries, hentries, h⟩ := exists_of_bind_eq_ok h
      cases h
      exact .rises (.parameter (Subtree.slotValue_of_columns hentries) rfl) .same (by simp)
        (by simp)
  | qualifyCondition =>
      obtain ⟨asName, _, h⟩ := exists_of_bind_eq_ok h
      obtain ⟨top, htop, h⟩ := exists_of_bind_eq_ok h
      cases h
      exact .rises (.predicate _ (Subtree.child_of_predicate htop)) .same (by simp) (by simp)
  | renameInCondition =>
      obtain ⟨pair, _, h⟩ := exists_of_bind_eq_ok h
      obtain ⟨top, htop, h⟩ := exists_of_bind_eq_ok h
      cases h
      exact .rises .same (.predicate _ (Subtree.child_of_predicate htop)) (by simp) (by simp)
  | renameInProjection =>
      obtain ⟨pair, _, h⟩ := exists_of_bind_eq_ok h
      obtain ⟨entries, hentries, h⟩ := exists_of_bind_eq_ok h
      split at h <;> cases h
      · exact .absorbed .same (by simp)
      · exact .rises .same (.parameter (Subtree.slotValue_of_columns hentries) rfl) (by simp)
          (by simp)
  | renameInSource =>
      obtain ⟨pair, _, h⟩ := exists_of_bind_eq_ok h
      obtain ⟨column, hcolumn, h⟩ := exists_of_bind_eq_ok h
      cases h
      exact .rises .same (.parameter (Subtree.slotValue_of_derivedColumn hcolumn) rfl) (by simp)
        (by simp)
  | deriveOverProjection =>
      obtain ⟨column, _, h⟩ := exists_of_bind_eq_ok h
      obtain ⟨entries, hentries, h⟩ := exists_of_bind_eq_ok h
      have hset : parent.Reworded
          (parent.setParameter (.columns (Columns.withoutDerived entries column.1))) :=
        .parameter (Subtree.slotValue_of_columns hentries) rfl
      dsimp only at h
      cases hs : Columns.selectDerived entries column.1 <;> rw [hs] at h <;> cases h
      · exact .absorbed hset (by simp)
      · exact .rises .same hset (by simp) (by simp)
  | deriveOverCondition =>
      obtain ⟨column, _, h⟩ := exists_of_bind_eq_ok h
      obtain ⟨top, _, h⟩ := exists_of_bind_eq_ok h
      split at h <;> cases h
      exact .rises .same .same (by simp) (by simp)
  | widenProjection =>
      obtain ⟨entries, hentries, h⟩ := exists_of_bind_eq_ok h
      cases h
      exact .rises (.parameter (Subtree.slotValue_of_columns hentries) rfl) .same (by simp)
        (by simp)
  | mergeProjections =>
      obtain ⟨inner, _, h⟩ := exists_of_bind_eq_ok h
      obtain ⟨outer, houter, h⟩ := exists_of_bind_eq_ok h
      cases h
      exact .absorbed (.parameter (Subtree.slotValue_of_columns houter) rfl) (by simp)
  | conjoinConditions =>
      obtain ⟨outer, houter, h⟩ := exists_of_bind_eq_ok h
      obtain ⟨inner, hinner, h⟩ := exists_of_bind_eq_ok h
      cases h
      exact .conjoined (Subtree.child_of_predicate houter) (Subtree.child_of_predicate hinner)

namespace Edit

/-- An edit that answers from what it knows and changes nothing. -/
def answer (result : Except Error α) : Edit α := fun t =>
  match result with
  | .ok a => .ok a t
  | .error cause => .error cause t

end Edit

namespace Tree

namespace Stores

variable {t : Tree} {m : Records} {s node parent left : Subtree} {place : Option Place}

theorem editBranchAlias_eq (h : t.Stores (s.records place + m)) :
    Edit.branchAlias s.id t = Edit.answer s.branchAlias t := by
  simp only [Edit.branchAlias, Edit.require, Edit.answer, Subtree.branchAlias, h.branchAlias?_eq]
  cases s.branchAlias? <;> rfl

theorem editPredicate_eq (h : t.Stores (s.records place + m)) :
    Edit.predicate s.id t = Edit.answer (s.predicate.map Subtree.id) t := by
  simp only [Edit.predicate, Edit.require, Edit.answer, Subtree.predicate, Tree.predicate?,
    h.child_eq]
  cases s.child 0 <;> rfl

theorem editRenamePair_eq (h : t.Stores (s.records place + m)) :
    Edit.renamePair s.id t = Edit.answer s.renamePair t := by
  simp only [Edit.renamePair, Edit.require, Edit.answer, Subtree.renamePair, Tree.renamePair?,
    h.slotValue_eq]
  cases s.slotValue 0 with
  | none => rfl
  | some value => cases value <;> rfl

theorem editDerivedColumn_eq (h : t.Stores (s.records place + m)) :
    Edit.derivedColumn s.id t = Edit.answer s.derivedColumn t := by
  simp only [Edit.derivedColumn, Edit.require, Edit.answer, Subtree.derivedColumn,
    Tree.derivedColumn?, h.slotValue_eq]
  cases s.slotValue 0 with
  | none => rfl
  | some value => cases value <;> rfl

theorem editColumns_eq (h : t.Stores (s.records place + m)) :
    Edit.columns s.id t = Edit.answer s.columns t := by
  simp only [Edit.columns, Edit.require, Edit.answer, Subtree.columns, Tree.columns?,
    h.slotValue_eq]
  cases s.slotValue 0 with
  | none => rfl
  | some value => cases value <;> rfl

/-- What a transfer did to the tree `t`, where a node crosses a parent at `place`, is what it makes
of the two subtrees. Of a node that is absorbed, `left` is left. -/
def Agrees (t : Tree) (left : Subtree) (place : Option Place) (m : Records) :
    Except Error Crossed → EStateM.Result Error Tree Verdict → Prop
  | .error cause, .error cause' t' => cause' = cause ∧ t' = t
  | .ok (.rises node' parent'), .ok .rises t' =>
    t'.root = t.root ∧ t'.nodes.size = t.nodes.size ∧
      t'.Stores (node'.records none + (parent'.records place + m))
  | .ok (.absorbed parent'), .ok .absorbed t' =>
    t'.root = t.root ∧ t'.Stores (left.records none + (parent'.records place + m))
  | _, _ => False

/-- Both sides read first: where the reading fails, both fail. -/
theorem Agrees.read {r : Except Error α} {φ : α → β} {read : Edit β} {f : α → Except Error Crossed}
    {next : β → Edit Verdict} (hr : read t = Edit.answer (r.map φ) t)
    (h : ∀ a, r = .ok a → Agrees t left place m (f a) (next (φ a) t)) :
    Agrees t left place m (r >>= f) ((read >>= next) t) := by
  have hbind : (read >>= next) t = (Edit.answer (r.map φ) >>= next) t := by
    rw [Edit.bind_apply, Edit.bind_apply, hr]
  rw [hbind]
  cases r with
  | error cause => exact ⟨rfl, rfl⟩
  | ok a => exact h a rfl

theorem Agrees.readSame {r : Except Error α} {read : Edit α} {f : α → Except Error Crossed}
    {next : α → Edit Verdict} (hr : read t = Edit.answer r t)
    (h : ∀ a, r = .ok a → Agrees t left place m (f a) (next a t)) :
    Agrees t left place m (r >>= f) ((read >>= next) t) := by
  have hread : read t = Edit.answer (r.map id) t := by
    rw [hr]
    cases r <;> rfl
  exact .read hread h

/-- A predicate that is read stands in slot 0. -/
theorem exists_frame_of_predicate {top : Subtree} (h : s.predicate = .ok top) :
    ∃ f : Frame, f.fill (some top) = s ∧ f.slot = 0 :=
  Subtree.exists_frame (Subtree.child_of_predicate h)

theorem renameBelow_child {f : Frame} {top : Subtree}
    (h : t.Stores ((f.fill (some top)).records place + m)) (g : String → Option String) :
    (t.renameBelow top.id g).2.Stores ((f.fill (some (top.mapNames g))).records place + m) := by
  refine (h.below.renameBelow g).congr ?_
  rw [Frame.records_fill_some, Subtree.mapNames_id]
  abel

/-- Two predicates are taken out of their slots and put under a new node in the slot of the
first. -/
theorem conjoin {f g : Frame} {outer inner : Subtree}
    (h : t.Stores ((g.fill (some inner)).records none +
      ((f.fill (some outer)).records place + m))) :
    let both := ((t.takeChild f.place).2.takeChild g.place).2.push .and none
      [some outer.id, some inner.id]
    (both.2.setChild f.place both.1).Stores
      ((g.fill none).records none + ((f.fill (some (.node t.nodes.size .and none
        [some outer, some inner]))).records place + m)) := by
  intro both
  have hid : both.1 = t.nodes.size := by simp [both]
  obtain ⟨_, houter⟩ := (h.congr (show _ = (f.fill (some outer)).records place +
    ((g.fill (some inner)).records none + m) by abel)).takeChild
  obtain ⟨_, hinner⟩ := (houter.congr (show _ = (g.fill (some inner)).records none +
    ((f.fill none).records place + (outer.records none + m)) by abel)).takeChild
  have hpushed := @Stores.push _ _ .and none [some outer, some inner]
    (hinner.congr (show _ = Subtree.loose [some outer, some inner] +
      ((f.fill none).records place + ((g.fill none).records none + m)) by
        simp only [Subtree.loose, add_zero]; abel))
  simp only [size_takeChild] at hpushed
  have hset := (hpushed.congr (show _ = (f.fill none).records place + (Subtree.records none _ +
    ((g.fill none).records none + m)) by abel)).setChild
  rw [hid]
  exact hset.congr (by simp only [Subtree.loose]; abel)

/-- A transfer applied to a tree does to the records of the node and the parent what `cross` does to
the subtrees. It fails where `cross` fails, and then it has changed nothing. -/
theorem apply (h : t.Stores (node.records none + (parent.records place + m))) (slot : Nat)
    (rule : Transfer) :
    Agrees t (rule.remnant node) place m (rule.cross t.nodes.size node parent slot)
      (rule.apply ⟨node.id, ⟨parent.id, slot⟩⟩ t) := by
  have hparent : t.Stores (parent.records place + (node.records none + m)) := h.congr (by abel)
  cases rule with
  | pass => exact ⟨rfl, rfl, h⟩
  | qualifyRename =>
      refine .readSame hparent.editBranchAlias_eq fun asName _ => ?_
      refine .readSame h.editRenamePair_eq fun pair _ => ?_
      exact ⟨by simp, by simp, h.setParameter_subtree _⟩
  | qualifyProjection =>
      refine .readSame hparent.editBranchAlias_eq fun asName _ => ?_
      refine .readSame h.editColumns_eq fun entries _ => ?_
      exact ⟨by simp, by simp, h.setParameter_subtree _⟩
  | qualifyCondition =>
      refine .readSame hparent.editBranchAlias_eq fun asName _ => ?_
      refine .read h.editPredicate_eq fun top htop => ?_
      obtain ⟨f, rfl, hslot⟩ := exists_frame_of_predicate htop
      refine ⟨root_renameBelow .., size_renameBelow .., ?_⟩
      rw [← hslot, Subtree.setChild_fill]
      exact h.renameBelow_child _
  | renameInCondition =>
      refine .readSame h.editRenamePair_eq fun pair _ => ?_
      refine .read hparent.editPredicate_eq fun top htop => ?_
      obtain ⟨f, rfl, hslot⟩ := exists_frame_of_predicate htop
      refine ⟨root_renameBelow .., size_renameBelow .., ?_⟩
      rw [← hslot, Subtree.setChild_fill]
      exact (hparent.renameBelow_child _).congr (by abel)
  | renameInProjection =>
      refine .readSame h.editRenamePair_eq fun pair _ => ?_
      refine .readSame hparent.editColumns_eq fun entries _ => ?_
      dsimp only
      cases Columns.foldRename? entries pair.1 pair.2 with
      | none => exact ⟨rfl, h⟩
      | some folded =>
          exact ⟨by simp, by simp, (hparent.setParameter_subtree _).congr (by abel)⟩
  | renameInSource =>
      refine .readSame h.editRenamePair_eq fun pair _ => ?_
      refine .readSame hparent.editDerivedColumn_eq fun column _ => ?_
      exact ⟨by simp, by simp, (hparent.setParameter_subtree _).congr (by abel)⟩
  | deriveOverProjection =>
      refine .readSame h.editDerivedColumn_eq fun column _ => ?_
      refine .readSame hparent.editColumns_eq fun entries _ => ?_
      dsimp only
      have hset := (hparent.setParameter_subtree
        (.columns (Columns.withoutDerived entries column.1))).congr
          (show _ = node.records none + (Subtree.records place _ + m) by abel)
      cases Columns.selectDerived entries column.1 with
      | true => exact ⟨by simp, by simp, hset⟩
      | false => exact ⟨by simp, hset⟩
  | deriveOverCondition =>
      refine .readSame h.editDerivedColumn_eq fun column _ => ?_
      refine .read hparent.editPredicate_eq fun top htop => ?_
      obtain ⟨f, rfl, _⟩ := exists_frame_of_predicate htop
      have hmentions := hparent.below.mentions_eq column.1
      dsimp only
      rw [Edit.get_bind, hmentions]
      cases top.mentions column.1 with
      | true => exact ⟨rfl, rfl⟩
      | false => exact ⟨rfl, rfl, h⟩
  | widenProjection =>
      have hwild := hparent.siblingWildcards_eq slot
      refine .readSame h.editColumns_eq fun entries _ => ?_
      rw [← hwild]
      exact ⟨by simp, by simp, h.setParameter_subtree _⟩
  | mergeProjections =>
      refine .readSame h.editColumns_eq fun inner _ => ?_
      refine .readSame hparent.editColumns_eq fun outer _ => ?_
      exact ⟨by simp, (hparent.setParameter_subtree _).congr
        (show _ = node.records none + (Subtree.records place _ + m) by abel)⟩
  | conjoinConditions =>
      refine .read hparent.editPredicate_eq fun outer houter => ?_
      refine .read h.editPredicate_eq fun inner hinner => ?_
      obtain ⟨f, rfl, hf⟩ := exists_frame_of_predicate houter
      obtain ⟨g, rfl, hg⟩ := exists_frame_of_predicate hinner
      have hparentPlace : (⟨(f.fill (some outer)).id, 0⟩ : Place) = f.place := by
        rw [Frame.place, hf]; rfl
      have hnodePlace : (⟨(g.fill (some inner)).id, 0⟩ : Place) = g.place := by
        rw [Frame.place, hg]; rfl
      have hleft : (f.fill (some outer)).setChild 0 (some (Subtree.node t.nodes.size .and none
          [some outer, some inner])) = f.fill (some (Subtree.node t.nodes.size .and none
          [some outer, some inner])) := by
        rw [← hf, Subtree.setChild_fill]
      have hremnant : Transfer.conjoinConditions.remnant (g.fill (some inner)) = g.fill none := by
        rw [Transfer.remnant, ← hg, Subtree.setChild_fill]
      simp only [hparentPlace, hnodePlace, hleft, hremnant]
      refine ⟨?_, ?_⟩
      · simp
      · exact h.conjoin

end Stores

end Tree

end FlatSelect
