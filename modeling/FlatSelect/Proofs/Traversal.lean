import FlatSelect.Proofs.Rooted
import Mathlib.Data.List.ReduceOption

/-!
# Three views of where a node stands

The first deviation of a tree is looked for from the root down, with the kinds that each slot takes.
A node also says itself where it stands, so that one can judge it without knowing how one has come
to it (`Tree.misplaced`). Where links agree, the first deviation is the first node of the listing
that is misplaced in this sense, for every grammar. The listing has each node that can be reached
once, parents before their children and slots in their order, and it is what a walk with a stack
brings to light (`Tree.Rooted.deviation?_eq_first_misplaced`).
-/

namespace FlatSelect

namespace Subtree

variable {g : Grammar} {expected : KindSet} {bad : NodeId → Bool} {s c c' : Subtree}

/-- Whether `bad` tells the nodes that may not stand where they do from the others. -/
def Tells (g : Grammar) (expected : KindSet) (bad : NodeId → Bool) (s : Subtree) : Prop :=
  ∀ (path : Path) (below : Subtree), path.fill below = s →
    bad below.id = !(path.expected g expected).contains below.kind

mutual
/-- The first deviation is the first node of the listing that is told from the others. -/
theorem deviation?_eq_find? {expected : KindSet} :
    ∀ {s : Subtree}, s.Tells g expected bad → s.deviation? g expected = s.ids.find? bad
  | .node id kind value slots, h => by
    have htop : bad id = !expected.contains kind := h [] _ rfl
    change _ = (id :: (preorderAll slots).map Subtree.id).find? bad
    rw [deviation?, List.find?_cons, htop]
    cases expected.contains kind with
    | false => rfl
    | true =>
        refine deviationIn?_eq_find? fun left c right hslots path below hfill => ?_
        have hbelow := h (path ++ [⟨id, kind, value, left, right⟩]) below (by
          rw [Path.fill_append, hfill, hslots]
          rfl)
        rw [Path.expected_concat] at hbelow
        rw [Nat.zero_add]
        exact hbelow
theorem deviationIn?_eq_find? {parent : Kind} :
    ∀ {slots : List (Option Subtree)} {slot : Nat},
      (∀ left c right, slots = left ++ some c :: right →
        c.Tells g (g.childKinds parent (slot + left.length)) bad) →
      deviationIn? g parent slot slots = ((preorderAll slots).map Subtree.id).find? bad
  | [], _, _ => rfl
  | none :: rest, slot, h => by
    refine @deviationIn?_eq_find? parent rest (slot + 1) fun left c right hslots => ?_
    have hc := h (none :: left) c right (congrArg (none :: ·) hslots)
    rw [List.length_cons, ← Nat.add_assoc, Nat.add_right_comm] at hc
    exact hc
  | some s :: rest, slot, h => by
    rw [deviationIn?, preorderAll, List.map_append, List.find?_append]
    have hs : s.deviation? g (g.childKinds parent slot) = s.ids.find? bad :=
      deviation?_eq_find? (h [] s rest rfl)
    have hrest : deviationIn? g parent (slot + 1) rest =
        ((preorderAll rest).map Subtree.id).find? bad := by
      refine deviationIn?_eq_find? fun left c right hslots => ?_
      have hc := h (some s :: left) c right (congrArg (some s :: ·) hslots)
      rw [List.length_cons, ← Nat.add_assoc, Nat.add_right_comm] at hc
      exact hc
    rw [hs, hrest]
    rfl
end

/-! ### The order of the listing -/

theorem preorder_sublist_preorderAll {slots : List (Option Subtree)} (h : some c ∈ slots) :
    c.preorder.Sublist (preorderAll slots) := by
  obtain ⟨left, right, rfl⟩ := List.append_of_mem h
  rw [preorderAll_append, preorderAll]
  exact (List.sublist_append_left _ _).trans (List.sublist_append_right _ _)

/-- What a node with something in its open slot lists. -/
theorem ids_fill (f : Frame) (c : Subtree) : (f.fill (some c)).ids =
    f.id :: ((preorderAll f.before).map Subtree.id ++
      (c.ids ++ (preorderAll f.after).map Subtree.id)) := by
  change ((f.fill (some c)) :: preorderAll (f.before ++ some c :: f.after)).map Subtree.id = _
  rw [List.map_cons, preorderAll_append, preorderAll, List.map_append, List.map_append]
  rfl

theorem ids_sublist_fill (path : Path) (s : Subtree) : s.ids.Sublist (path.fill s).ids := by
  induction path generalizing s with
  | nil => exact List.Sublist.refl _
  | cons f above ih =>
      refine List.Sublist.trans ?_ (ih (f.fill (some s)))
      rw [ids_fill]
      exact ((List.sublist_append_left _ _).trans (List.sublist_append_right _ _)).cons _

theorem top_before_child {slot : Nat} (h : s.child slot = some c) :
    [s.id, c.id].Sublist s.ids := by
  obtain ⟨f, rfl, _⟩ := exists_frame h
  rw [ids_fill]
  refine (List.singleton_sublist.mpr ?_).cons_cons f.id
  exact List.mem_append_right _ (List.mem_append_left _ c.id_mem_ids)

/-- What hangs below an earlier slot is listed before what hangs below a later one. -/
theorem slot_before_slot {slot slot' : Nat} {id other : NodeId} (hlt : slot < slot')
    (h : s.child slot = some c) (h' : s.child slot' = some c') (hid : id ∈ c.ids)
    (hother : other ∈ c'.ids) : [id, other].Sublist s.ids := by
  obtain ⟨f, rfl, rfl⟩ := exists_frame h
  have hafter : some c' ∈ f.after := by
    obtain ⟨k, rfl⟩ := Nat.exists_eq_add_of_lt hlt
    have hget := Option.join_eq_some_iff.mp h'
    rw [Frame.fill_slots, List.getElem?_append_right (by simp only [Frame.slot]; omega)] at hget
    have hindex : f.slot + k + 1 - f.before.length = k + 1 := by
      simp only [Frame.slot]
      omega
    rw [hindex, List.getElem?_cons_succ] at hget
    exact List.mem_of_getElem? hget
  rw [ids_fill]
  refine List.Sublist.cons _ (List.Sublist.trans ?_ (List.sublist_append_right _ _))
  exact (List.singleton_sublist.mpr hid).append
    ((List.singleton_sublist.mpr hother).trans ((preorder_sublist_preorderAll hafter).map _))

end Subtree

namespace Tree

variable {t : Tree} {g : Grammar} {roots : KindSet} {s : Subtree} {graves : Records}
variable {id other : NodeId} {way : List Nat}

/-- Whether a node stands where it may not, by its own account: the root, if its kind is none of
`roots`, and any node whose kind the slot that it says it stands in does not take. -/
def misplaced (t : Tree) (g : Grammar) (roots : KindSet) (id : NodeId) : Bool :=
  (decide (id = t.root) && !roots.contains (t.kind id)) ||
    (t.place id).any fun place => !g.allows (t.kind place.parent) place.slot (t.kind id)

/-- A list of all that can be reached, each node once. Parents are listed before their children,
and what hangs below a slot before what hangs below the later slots of the same node. -/
structure ListsInOrder (t : Tree) (ids : List NodeId) : Prop where
  nodup : ids.Nodup
  mem_iff {id : NodeId} : id ∈ ids ↔ ∃ way, t.follow t.root way = some id
  parent_before {parent child : NodeId} {slot : Nat} (h : parent ∈ ids)
    (hchild : t.child parent slot = some child) : [parent, child].Sublist ids
  slot_before {parent child child' id other : NodeId} {slot slot' : Nat} {way way' : List Nat}
    (h : parent ∈ ids) (hlt : slot < slot') (hchild : t.child parent slot = some child)
    (hchild' : t.child parent slot' = some child') (hid : t.follow child way = some id)
    (hother : t.follow child' way' = some other) : [id, other].Sublist ids

/-- What a walk with a stack brings to light: the node on top is listed, and its children are put
in its place. -/
inductive Walks (t : Tree) : List NodeId → List NodeId → Prop
  | done : Walks t [] []
  | step {id : NodeId} {stack ids : List NodeId}
    (h : Walks t ((t.slots id).reduceOption ++ stack) ids) : Walks t (id :: stack) (id :: ids)

theorem Walks.unique {stack ids ids' : List NodeId} (h : t.Walks stack ids)
    (h' : t.Walks stack ids') : ids = ids' := by
  induction h generalizing ids' with
  | done =>
      cases h'
      rfl
  | step _ ih =>
      cases h' with
      | step h' => rw [ih h']

mutual
/-- A walk lists a node, all that hangs below it, and then the rest of its stack. -/
theorem walks_ids {stack rest : List NodeId} : ∀ {s : Subtree},
    (∀ n ∈ s.preorder, t.slots n.id = n.slots.map (Option.map Subtree.id)) →
      t.Walks stack rest → t.Walks (s.id :: stack) (s.ids ++ rest)
  | .node id kind value slots, h, hrest => by
    refine .step ?_
    rw [h (.node id kind value slots) List.mem_cons_self]
    exact walks_slots (fun n hn => h n (List.mem_cons_of_mem _ hn)) hrest
theorem walks_slots {stack rest : List NodeId} : ∀ {slots : List (Option Subtree)},
    (∀ n ∈ Subtree.preorderAll slots, t.slots n.id = n.slots.map (Option.map Subtree.id)) →
      t.Walks stack rest →
      t.Walks ((slots.map (Option.map Subtree.id)).reduceOption ++ stack)
        ((Subtree.preorderAll slots).map Subtree.id ++ rest)
  | [], _, hrest => hrest
  | none :: slots, h, hrest => @walks_slots stack rest slots h hrest
  | some s :: slots, h, hrest => by
    rw [Subtree.preorderAll, List.map_append, List.append_assoc]
    refine walks_ids (fun n hn => h n (List.mem_append_left _ hn)) ?_
    exact walks_slots (fun n hn => h n (List.mem_append_right _ hn)) hrest
end

namespace Holds

/-- The way down to a node and the node itself give the same account of whether it may stand where
it does. -/
theorem tells_misplaced (h : t.Holds s graves) (g : Grammar) (roots : KindSet) :
    s.Tells g roots (t.misplaced g roots) := by
  rintro path below rfl
  have hplace := h.represents.place_foot
  rw [misplaced, h.represents.kind_foot, hplace]
  cases path with
  | nil =>
      have hroot : below.id = t.root := h.root_eq.symm
      rw [decide_eq_true hroot]
      exact Bool.or_false _
  | cons f above =>
      have hroot : below.id ≠ t.root := by
        intro hroot
        have htop : t.place t.root = none := h.root_eq ▸ h.stores.place_eq
        rw [hroot, htop] at hplace
        cases hplace
      rw [decide_eq_false hroot]
      change (!g.allows (t.kind f.id) f.slot below.kind) = _
      rw [h.represents.kind_parent]
      rfl

theorem walks_preorder (h : t.Holds s graves) : t.Walks [t.root] t.preorder := by
  rw [preorder, h.subtree_eq, h.root_eq, ← List.append_nil s.ids]
  refine walks_ids (fun n hn => ?_) .done
  obtain ⟨path, rfl⟩ := Subtree.exists_path_of_mem_preorder hn
  exact h.stores_foot.slots_eq

end Holds

namespace Rooted

/-- Whatever is listed stands at the foot of a path, and what can be reached from it is what hangs
below it there. -/
theorem exists_foot (h : t.Rooted) (hid : id ∈ t.preorder) :
    ∃ (path : Path) (below : Subtree), path.fill below = t.subtree t.root ∧ below.id = id ∧
      ∀ slot child, t.child id slot = some child → ∃ c, below.child slot = some c ∧ c.id = child ∧
        ∀ way other, t.follow child way = some other → other ∈ c.ids := by
  obtain ⟨path, below, hfill, rfl⟩ := Subtree.exists_path_of_mem hid
  obtain ⟨graves, hholds⟩ := h.exists_holds
  rw [← hfill] at hholds
  refine ⟨path, below, hfill, rfl, fun slot child hchild => ?_⟩
  have hway : t.follow t.root ((path.map Frame.slot).reverse ++ [slot]) = some child := by
    rw [follow_concat, hholds.follow_foot]
    exact hchild
  rw [hholds.stores_foot.child_eq] at hchild
  obtain ⟨c, hc, rfl⟩ := Option.map_eq_some_iff.mp hchild
  refine ⟨c, hc, rfl, fun way other hother => ?_⟩
  have hsubtree : t.subtree c.id = c := by
    obtain ⟨f, rfl, _⟩ := Subtree.exists_frame hc
    exact hholds.stores_foot.below.subtree_eq
  rw [← hsubtree]
  exact (h.mem_ids_subtree hway).mpr ⟨way, hother⟩

theorem listsInOrder_preorder (h : t.Rooted) : t.ListsInOrder t.preorder where
  nodup := h.nodup_preorder
  mem_iff := h.mem_preorder
  parent_before := by
    intro parent child slot hparent hchild
    obtain ⟨path, below, hfill, rfl, hbelow⟩ := h.exists_foot hparent
    obtain ⟨c, hc, rfl, _⟩ := hbelow slot child hchild
    rw [preorder, ← hfill]
    exact (Subtree.top_before_child hc).trans (Subtree.ids_sublist_fill path below)
  slot_before := by
    intro parent child child' id other slot slot' way way' hparent hlt hchild hchild' hid hother
    obtain ⟨path, below, hfill, rfl, hbelow⟩ := h.exists_foot hparent
    obtain ⟨c, hc, _, hreach⟩ := hbelow slot child hchild
    obtain ⟨c', hc', _, hreach'⟩ := hbelow slot' child' hchild'
    rw [preorder, ← hfill]
    have hfirst : id ∈ c.ids := hreach way id hid
    have hsecond : other ∈ c'.ids := hreach' way' other hother
    exact (Subtree.slot_before_slot hlt hc hc' hfirst hsecond).trans
      (Subtree.ids_sublist_fill path below)

/-- The first deviation is the first node of the listing that is misplaced by its own account, and
there is none if no node is. The listing has all that can be reached, in order, and it is what a
walk with a stack brings to light. -/
theorem deviation?_eq_first_misplaced (h : t.Rooted) (g : Grammar) (roots : KindSet) :
    t.deviation? g roots = t.preorder.find? (t.misplaced g roots) ∧
    (t.deviation? g roots = none ↔ ∀ id ∈ t.preorder, t.misplaced g roots id = false) ∧
    t.ListsInOrder t.preorder ∧ ∀ ids, t.Walks [t.root] ids ↔ ids = t.preorder := by
  obtain ⟨graves, hholds⟩ := h.exists_holds
  have hfirst : t.deviation? g roots = t.preorder.find? (t.misplaced g roots) :=
    Subtree.deviation?_eq_find? (hholds.tells_misplaced g roots)
  refine ⟨hfirst, ?_, h.listsInOrder_preorder, ?_⟩
  · rw [hfirst, List.find?_eq_none]
    simp only [Bool.not_eq_true]
  · intro ids
    constructor
    · exact fun hwalks => hwalks.unique hholds.walks_preorder
    · rintro rfl
      exact hholds.walks_preorder

/-- A rename below a condition is the first deviation, and the only node that is misplaced. -/
theorem deviation?_eq_first_misplaced_rename :
    let t := planted (.assign "T" (.condition (.name "p") (.rename "y" "x" (.input1 "t"))))
    let roots := KindSet.ofList [.assign]
    t.Rooted ∧ t.preorder = [7, 0, 6, 1, 5, 2, 4, 3] ∧ t.deviation? .flatSelect roots = some 5 ∧
      t.preorder.filter (t.misplaced .flatSelect roots) = [5] ∧
      t.deviation? .flatSelect roots = t.preorder.find? (t.misplaced .flatSelect roots) ∧
      (t.deviation? .flatSelect roots = none ↔
        ∀ id ∈ t.preorder, t.misplaced .flatSelect roots id = false) ∧
      t.ListsInOrder t.preorder ∧ ∀ ids, t.Walks [t.root] ids ↔ ids = t.preorder := by
  intro t roots
  have ht : ofExpr (.assign "T" (.condition (.name "p") (.rename "y" "x" (.input1 "t")))) = .ok t :=
    ofExpr_eq_ok.mpr ⟨rfl, rfl⟩
  have h : t.Rooted := (Reached.built (c := .strict) ht).intact.consistent_links.rooted
  exact ⟨h, by decide +kernel, by decide +kernel, by decide +kernel,
    h.deviation?_eq_first_misplaced .flatSelect roots⟩

end Rooted

end Tree

end FlatSelect
