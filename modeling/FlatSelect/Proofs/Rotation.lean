import FlatSelect.Proofs.Descent
import FlatSelect.Proofs.Masks
import FlatSelect.Proofs.Rooted

/-!
# A lift is a rotation

A node that is lifted past some of its ancestors changes places with all of them together: they
hang below it afterwards, in the order that they had, and what was its operand hangs in the slot
that it has left. So three links of a tree are new, and the rest of it is as before, but for words
in slot 0 of the nodes that have met (`Tree.Rooted.rotation_of_lift`).

On the subtree that a tree represents this is a statement about two fillings. Before, the path
begins with the node and goes on with those it will cross. Afterwards the node comes behind them
(`Subtree.Rises.rotates`). The nodes of both are the same, wherever they stand
(`Path.seen_rotate`).
-/

namespace FlatSelect

/-! ### Paths -/

namespace Path

variable {look : NodeId → Node → α} {d : Frame} {lower upper : Path} {s : Subtree}

/-- To turn a node and those above it round is not seen by a look that does not show where the node,
its operand and the topmost of the others stand. -/
theorem seen_rotate (hlook : Childless look) (hnode : Placeless look d.id)
    (hoperand : Placeless look s.id) (htop : ∀ f, lower.getLast? = some f → Placeless look f.id) :
    ((Path.fill (lower ++ d :: upper) s).records none).seen look =
      ((Path.fill (d :: (lower ++ upper)) s).records none).seen look := by
  -- Above `lower` stands `upper` in the one whole and `d` in the other. Only its last frame tells.
  have hrest : seen look lower ((place? (d :: upper)).or none) =
      seen look lower ((place? upper).or none) := seen_top htop ..
  have hd : d.seen look ((place? upper).or none) =
      d.seen look ((place? (lower ++ upper)).or none) := Frame.seen_place hnode ..
  rw [seen_fill hlook, seen_fill hlook, seen_append, seen, seen, seen_append, hrest, hd,
    Subtree.seen_records_place hoperand _ (place? (d :: (lower ++ upper)))]
  abel

theorem ids_fill_subset (path : Path) {s s' : Subtree} (h : s.ids ⊆ s'.ids) :
    (path.fill s).ids ⊆ (path.fill s').ids := by
  induction path generalizing s s' with
  | nil => exact h
  | cons f above ih =>
      refine ih fun id hid => ?_
      rw [Subtree.mem_ids] at hid ⊢
      refine hid.imp_right ?_
      rintro ⟨slot, c, hc, hid⟩
      by_cases hslot : f.slot = slot
      · subst hslot
        rw [Frame.child_fill] at hc
        cases hc
        exact ⟨f.slot, s', f.child_fill _, h hid⟩
      · exact ⟨slot, c, by rwa [f.child_fill_of_ne _ hslot] at hc ⊢, hid⟩

end Path

theorem Frame.wording_fill_subset (f : Frame) {s s' : Subtree} (h : s.ids ⊆ s'.ids) :
    (f.fill (some s)).wording ⊆ (f.fill (some s')).wording := by
  by_cases hslot : f.slot = 0
  · rw [Subtree.wording, Subtree.wording, ← hslot, f.child_fill, f.child_fill]
    exact h
  · rw [Subtree.wording, Subtree.wording, f.child_fill_of_ne (some s) hslot,
      f.child_fill_of_ne (some s') hslot]
    exact List.Subset.refl _

theorem Frame.wording_fill {f : Frame} (h : f.slot = 1) (hole : Option Subtree) :
    (f.fill hole).wording = (f.fill none).wording := by
  rw [Subtree.wording, Subtree.wording, f.child_fill_of_ne hole (by omega)]

/-- The wording of a node without its operand and of the frames that the operand hangs below. -/
def Frame.metWording (d : Frame) (lower : Path) (operand : Subtree) : List NodeId :=
  (d.fill none).wording ++ lower.wording operand

namespace Subtree

variable {g : Grammar} {fresh : NodeId} {node below whole : Subtree} {path : Path} {d : Frame}
  {place : Place} {steps n : Nat}

/-- A node that lands below a frame has turned round with all that it has crossed, none of which
allows it. But for the wording of these and its own, nothing else has changed. -/
theorem Rises.rotates (hd : d.slot = 1) (hnode : node = d.fill none)
    (h : Rises g fresh node below steps path (.relocated place n) whole) :
    ∃ (lower : Path) (f : Frame) (above : Path), path = lower ++ f :: above ∧
      n = steps + lower.length ∧ place = f.place ∧ g.allows f.kind f.slot d.kind = true ∧
      (∀ c ∈ lower, g.allows c.kind c.slot d.kind = false) ∧
      ∀ hidden, (d.fill none).wording ⊆ hidden → lower.wording below ⊆ hidden →
        whole.mask hidden = (Path.fill (lower ++ d :: f :: above) below).mask hidden := by
  generalize houtcome : Lift.Outcome.relocated place n = outcome at h
  -- By the time a frame is crossed the node and what hangs below may have other words. The frames
  -- above are still those of the beginning.
  induction h generalizing d with
  | @lands node below steps f above hallows =>
      subst hnode
      cases houtcome
      refine ⟨[], f, above, rfl, rfl, rfl, hallows, fun c hc => absurd hc List.not_mem_nil, ?_⟩
      intro hidden _ _
      rw [← hd, setChild_fill]
      rfl
  | absorbed => cases houtcome
  | @crosses node below node' parent' whole steps f above rule outcome hallows _ hcross _ ih =>
      subst hnode
      cases Transfer.comes_of_cross hcross with
      | rises hnode hparent _ _ =>
          obtain ⟨d', rfl, hd', hkind⟩ := hnode.exists_frame hd
          obtain ⟨lower, f', above', rfl, hsteps, hplace, hallows', hforbids, hmask⟩ :=
            ih hd' rfl houtcome
          rw [hkind] at hallows' hforbids
          refine ⟨f :: lower, f', above', rfl, ?_, hplace, hallows', ?_, ?_⟩
          · rw [hsteps, List.length_cons, Nat.add_assoc, Nat.add_comm 1]
          · exact List.forall_mem_cons.mpr ⟨hallows, hforbids⟩
          · intro hidden hwording hrest
            obtain ⟨hf, hlower⟩ := List.append_subset.mp hrest
            have hmask' := hnode.mask_eq hwording
            have hparent' := hparent.mask_eq hf
            rw [hmask hidden (wording_eq_of_mask_eq hmask' ▸ hwording)
              (lower.wording_eq_of_mask_eq hparent' ▸ hlower)]
            -- The frames above are the same, and the node with what hangs below it looks the same.
            have hbelow := lower.fill_mask_congr hparent'
            have hrisen : (d'.fill (some (lower.fill parent'))).mask hidden =
                (d.fill (some (lower.fill (f.fill (some below))))).mask hidden := by
              rw [← setChild_fill d' none, ← setChild_fill d none, setChild_mask, setChild_mask,
                hmask', Option.map_some, hbelow, hd, hd', Option.map_some]
            rw [Path.fill_append, List.cons_append, Path.fill_cons f, Path.fill_append]
            exact Path.fill_mask_congr (f' :: above') hrisen

/-- A lift that ends at a place has turned a node round with some of its ancestors. -/
theorem rotates_of_lift (h : node.lift g fresh path = .ok (.relocated place steps, whole)) :
    ∃ (d : Frame) (operand : Subtree) (lower : Path) (f : Frame) (above : Path),
      d.fill (some operand) = node ∧ d.slot = 1 ∧ path = lower ++ f :: above ∧ lower ≠ [] ∧
      steps = lower.length ∧ place = f.place ∧ g.allows f.kind f.slot d.kind = true ∧
      (∀ c ∈ lower, g.allows c.kind c.slot d.kind = false) ∧
      whole.mask (d.metWording lower operand) =
        (Path.fill (lower ++ d :: f :: above) operand).mask (d.metWording lower operand) := by
  cases path with
  | nil => cases h
  | cons c rest =>
      cases hallows : g.allows c.kind c.slot node.kind with
      | true =>
          rw [lift, hallows, if_pos rfl] at h
          cases h
      | false =>
          obtain ⟨d, operand, rfl, hd, _, hrises⟩ := exists_rises_of_lift hallows h
          have hone := hrises.one_le_of_forbidden (open_fill_none hd) hallows
          obtain ⟨lower, f, above, hpath, hsteps, hplace, hallows', hforbids, hmask⟩ :=
            hrises.rotates hd rfl
          refine ⟨d, operand, lower, f, above, rfl, hd, hpath, ?_, by omega, hplace, hallows',
            hforbids, hmask _ (List.subset_append_left ..) (List.subset_append_right ..)⟩
          rintro rfl
          simp only [List.length_nil] at hsteps
          omega

end Subtree

/-! ### Trees -/

namespace Tree

variable {t t' : Tree} {m m' graves : Records} {look : NodeId → Node → α} {id : NodeId}
  {s whole : Subtree} {path : Path} {hidden : List NodeId}

namespace Stores

theorem keys_eq_of_seen (hseen : m'.seen look = m.seen look) :
    m'.map Prod.fst = m.map Prod.fst := by
  have hkeys : ∀ m : Records, (m.seen look).map Prod.fst = m.map Prod.fst := by
    intro m
    rw [Records.seen, Multiset.map_map]
    rfl
  rw [← hkeys, hseen, hkeys]

theorem size_eq_of_seen (h : t.Stores m) (h' : t'.Stores m') (hseen : m'.seen look = m.seen look) :
    t'.nodes.size = t.nodes.size := by
  have hlt : ∀ id, id < t'.nodes.size ↔ id < t.nodes.size := by
    intro id
    rw [← h'.mem_keys, keys_eq_of_seen hseen, h.mem_keys]
  exact Nat.le_antisymm (Nat.le_of_not_lt fun hgt => absurd ((hlt _).mp hgt) (Nat.lt_irrefl _))
    (Nat.le_of_not_lt fun hgt => absurd ((hlt _).mpr hgt) (Nat.lt_irrefl _))

/-- What is seen of the records of a tree is seen of its nodes. -/
theorem look_eq_of_seen (h : t.Stores m) (h' : t'.Stores m')
    (hseen : m'.seen look = m.seen look) (id : NodeId) :
    look id (t'.node id) = look id (t.node id) := by
  have hsize := h.size_eq_of_seen h' hseen
  by_cases hlt : id < t.nodes.size
  · obtain ⟨⟨_, n⟩, hmem, rfl⟩ := Multiset.mem_map.mp ((h.mem_keys id).mpr hlt)
    have hmem' := Multiset.mem_map_of_mem (fun e : NodeId × Node => (e.1, look e.1 e.2)) hmem
    rw [← Records.seen, ← hseen] at hmem'
    obtain ⟨⟨_, n'⟩, hn', heq⟩ := Multiset.mem_map.mp hmem'
    obtain ⟨rfl, hlook⟩ := Prod.mk.inj heq
    rw [h.node_eq _ hmem, h'.node_eq _ hn']
    exact hlook
  · rw [node_absent (Nat.le_of_not_lt hlt), node_absent (hsize ▸ Nat.le_of_not_lt hlt)]

end Stores

/-- A node stands in a place by its own account and by the account of the slot. -/
def Stands (t : Tree) (id : NodeId) (place : Place) : Prop :=
  t.place id = some place ∧ t.child place.parent place.slot = some id

/-- The nodes that hang in slot 0 of a node. -/
def Words (t : Tree) (parent id : NodeId) : Prop :=
  ∃ leaf, t.child parent 0 = some leaf ∧ id ∈ (t.subtree leaf).ids

namespace Holds

theorem ancestors_foot (h : t.Holds (path.fill s) graves) :
    t.ancestors s.id = path.map Frame.place := by
  have hpath : t.Stores (path.records s.id + (s.records path.place? + graves)) :=
    h.stores_foot.congr (by abel)
  exact h.stores_foot.climb_eq hpath.length_path_le

theorem stands_foot {f : Frame} {above : Path} (h : t.Holds (Path.fill (f :: above) s) graves) :
    t.Stands s.id f.place := by
  refine ⟨h.represents.place_foot, ?_⟩
  have hchild := h.stores_parent.child_eq f.slot
  rwa [f.child_fill] at hchild

theorem kind_of_mem {f : Frame} (h : t.Holds (path.fill s) graves) (hf : f ∈ path) :
    t.kind f.id = f.kind := by
  obtain ⟨lower, upper, rfl⟩ := List.append_of_mem hf
  rw [Path.fill_append] at h
  exact h.represents.kind_parent

theorem words_foot (h : t.Holds (path.fill s) graves) (hid : id ∈ s.wording) :
    t.Words s.id id := by
  rw [Subtree.wording] at hid
  cases hc : s.child 0 with
  | none =>
      rw [hc] at hid
      exact absurd hid List.not_mem_nil
  | some c =>
      rw [hc] at hid
      obtain ⟨_, hbelow⟩ := h.stores_foot.exists_below hc
      refine ⟨c.id, by rw [h.stores_foot.child_eq, hc]; rfl, ?_⟩
      rw [hbelow.subtree_eq]
      exact hid

/-- What is in a slot of a live node is live and says so. -/
theorem child_iff {parent child : NodeId} {slot : Nat} (h : t.Holds s graves)
    (hlive : t.isLive parent = true) :
    t.child parent slot = some child ↔
      t.isLive child = true ∧ t.place child = some ⟨parent, slot⟩ := by
  constructor
  · intro hchild
    obtain ⟨path, below, rfl, rfl⟩ := h.exists_path_of_isLive hlive
    rw [h.stores_foot.child_eq] at hchild
    obtain ⟨c, hc, rfl⟩ := Option.map_eq_some_iff.mp hchild
    obtain ⟨f, rfl, rfl⟩ := Subtree.exists_frame hc
    have hfoot : t.Holds (Path.fill (f :: path) c) graves := h
    exact ⟨hfoot.isLive_foot, hfoot.represents.place_foot⟩
  · rintro ⟨hchild, hplace⟩
    obtain ⟨path, c, rfl, rfl⟩ := h.exists_path_of_isLive hchild
    rw [h.represents.place_foot] at hplace
    cases path with
    | nil => cases hplace
    | cons f above =>
        cases hplace
        exact h.stands_foot.2

theorem mem_graves_of_dead (h : t.Holds s graves) (hlt : id < t.nodes.size)
    (hdead : t.isLive id = false) : (id, t.node id) ∈ graves := by
  obtain ⟨⟨_, n⟩, hmem, rfl⟩ := Multiset.mem_map.mp ((h.stores.mem_keys id).mpr hlt)
  have hnode := h.stores.node_eq _ hmem
  rcases Multiset.mem_add.mp hmem with hlive | hgrave
  · obtain ⟨path, below, rfl, heq⟩ := Subtree.exists_path_of_mem_records hlive
    obtain ⟨rfl, -⟩ := Prod.mk.inj heq
    rw [h.isLive_foot] at hdead
    cases hdead
  · exact hnode ▸ hgrave

/-- Of two trees with the same dead nodes a node that is dead in one is the same in the other. -/
theorem node_eq_of_dead {s' : Subtree} (h : t.Holds s graves) (h' : t'.Holds s' graves)
    (hsize : t'.nodes.size = t.nodes.size) (hdead : t.isLive id = false) :
    t'.node id = t.node id := by
  by_cases hlt : id < t.nodes.size
  · exact h'.stores.node_eq _ (Multiset.mem_add.mpr (.inr (h.mem_graves_of_dead hlt hdead)))
  · rw [node_absent (Nat.le_of_not_lt hlt), node_absent (hsize ▸ Nat.le_of_not_lt hlt)]

/-- A tree that represents a subtree but for a mask has the links of that subtree. -/
theorem exists_foot (h : t.Holds whole graves)
    (hmask : whole.mask hidden = (path.fill s).mask hidden) :
    ∃ (path' : Path) (s' : Subtree), t.Holds (path'.fill s') graves ∧
      path'.map Frame.place = path.map Frame.place ∧ s'.mask hidden = s.mask hidden := by
  rw [Path.fill_mask] at hmask
  obtain ⟨path', s', rfl, hpath, hs⟩ := Subtree.exists_fill_of_mask hmask
  refine ⟨path', s', h, ?_, hs⟩
  have hplaces := congrArg (List.map Frame.place) hpath
  simpa only [List.map_map, Function.comp_def, Frame.mask_place] using hplaces

section Masked

variable (h : t.Holds whole graves) (hmask : whole.mask hidden = (path.fill s).mask hidden)

include h hmask

theorem ancestors_of_mask : t.ancestors s.id = path.map Frame.place := by
  obtain ⟨path', s', hholds, hplaces, hs⟩ := h.exists_foot hmask
  rw [← hplaces, ← hholds.ancestors_foot, Subtree.id_eq_of_mask_eq hs]

theorem stands_of_mask {f : Frame} {above : Path} (hpath : path = f :: above) :
    t.Stands s.id f.place := by
  obtain ⟨path', s', hholds, hplaces, hs⟩ := h.exists_foot hmask
  rw [hpath, List.map_cons] at hplaces
  obtain ⟨f', above', rfl, hf, _⟩ := List.map_eq_cons_iff.mp hplaces
  rw [← hf, ← Subtree.id_eq_of_mask_eq hs]
  exact hholds.stands_foot

theorem words_of_mask (hid : id ∈ s.wording) : t.Words s.id id := by
  obtain ⟨path', s', hholds, _, hs⟩ := h.exists_foot hmask
  rw [← Subtree.id_eq_of_mask_eq hs]
  exact hholds.words_foot (Subtree.wording_eq_of_mask_eq hs ▸ hid)

end Masked

end Holds

/-- A tree before a node and the frames above it have been turned round, and the tree after that.
The words of the node and of these frames may be others. -/
structure Rotated (t t' : Tree) (d : Frame) (lower upper : Path) (operand whole : Subtree)
    (graves : Records) : Prop where
  slot_eq : d.slot = 1
  before : t.Holds (Path.fill (d :: (lower ++ upper)) operand) graves
  after : t'.Holds whole graves
  mask_eq : whole.mask (d.metWording lower operand) =
    (Path.fill (lower ++ d :: upper) operand).mask (d.metWording lower operand)

namespace Rotated

variable {d f first last : Frame} {lower upper above : Path} {operand : Subtree}

/-- The node stood above its operand. -/
theorem node_before (h : t.Rotated t' d lower upper operand whole graves) :
    t.Holds (Path.fill (lower ++ upper) (d.fill (some operand))) graves :=
  h.before

/-- The node stands above the frames that it has crossed. -/
theorem node_after (h : t.Rotated t' d lower upper operand whole graves) :
    whole.mask (d.metWording lower operand) =
      (Path.fill upper (d.fill (some (lower.fill operand)))).mask (d.metWording lower operand) := by
  rw [h.mask_eq, Path.fill_append]
  rfl

theorem seen_eq (h : t.Rotated t' d lower upper operand whole graves)
    (look : NodeId → Node → α) (hlook : Childless look) (hnode : Placeless look d.id)
    (hoperand : Placeless look operand.id)
    (htop : ∀ f, lower.getLast? = some f → Placeless look f.id)
    (hwords : ∀ id ∈ d.metWording lower operand, Wordless look id) :
    (whole.records none + graves).seen look =
      ((Path.fill (d :: (lower ++ upper)) operand).records none + graves).seen look := by
  rw [Records.seen_add, Records.seen_add, Subtree.seen_eq_of_mask_eq none hwords h.mask_eq,
    Path.seen_rotate hlook hnode hoperand htop]

/-- Nothing of a node changes but its links and its words. -/
theorem kept (h : t.Rotated t' d lower upper operand whole graves) :
    t'.nodes.size = t.nodes.size ∧ ∀ id, t'.kind id = t.kind id ∧ t'.isLive id = t.isLive id ∧
      (t'.slots id).length = (t.slots id).length ∧
      (t'.value id).map Value.form = (t.value id).map Value.form := by
  let look : NodeId → Node → Kind × Bool × Nat × Option String := fun _ n =>
    (n.kind, n.live, n.slots.length, n.value.map Value.form)
  have hseen := h.seen_eq look (fun _ _ _ hslots => by simp [look, hslots])
    (fun _ _ => rfl) (fun _ _ => rfl) (fun _ _ _ _ => rfl)
    (fun _ _ _ _ hvalue => by simp [look, hvalue])
  refine ⟨h.before.stores.size_eq_of_seen h.after.stores hseen, fun id => ?_⟩
  have hlook := h.before.stores.look_eq_of_seen h.after.stores hseen id
  simp only [look, Prod.mk.injEq] at hlook
  exact hlook

/-- Only three nodes stand elsewhere. -/
theorem place_eq (h : t.Rotated t' d lower upper operand whole graves)
    (hlast : lower.getLast? = some last) (hnode : id ≠ d.id) (htop : id ≠ last.id)
    (hoperand : id ≠ operand.id) : t'.place id = t.place id := by
  -- A look at the places of all nodes but those that move.
  let look : NodeId → Node → Option Place := fun id n =>
    if id ∈ [d.id, last.id, operand.id] then none else n.place
  have hmoved : ∀ {id}, id ∈ [d.id, last.id, operand.id] → Placeless look id := by
    intro id hid n place
    simp only [look, if_pos hid]
  have hseen := h.seen_eq look (fun _ _ _ _ => rfl) (hmoved (by simp))
    (hmoved (by simp)) (fun f hf => hmoved (by rw [hlast] at hf; cases hf; simp))
    (fun _ _ _ _ _ => rfl)
  have hlook := h.before.stores.look_eq_of_seen h.after.stores hseen id
  simp only [look, List.mem_cons, hnode, htop, hoperand, List.not_mem_nil, or_self,
    if_false] at hlook
  exact hlook

/-- A value changes only in the wording of the nodes that have met. -/
theorem mem_of_value_ne (h : t.Rotated t' d lower upper operand whole graves)
    (hvalue : t'.value id ≠ t.value id) :
    id ∈ d.metWording lower operand := by
  by_contra hid
  let look : NodeId → Node → Option Value := fun id n =>
    if id ∈ d.metWording lower operand then none else n.value
  have hseen := h.seen_eq look (fun _ _ _ _ => rfl) (fun _ _ => rfl)
    (fun _ _ => rfl) (fun _ _ _ _ => rfl) (fun _ hid _ _ _ => by simp only [look, if_pos hid])
  have hlook := h.before.stores.look_eq_of_seen h.after.stores hseen id
  simp only [look, if_neg hid] at hlook
  exact hvalue hlook

/-- A value changes to one of its form only. -/
theorem exists_values (h : t.Rotated t' d lower upper operand whole graves)
    (hvalue : t'.value id ≠ t.value id) :
    ∃ old new, t.value id = some old ∧ t'.value id = some new ∧ new.form = old.form := by
  have hform := (h.kept.2 id).2.2.2
  cases hold : t.value id with
  | none =>
      rw [hold, Option.map_none, Option.map_eq_none_iff] at hform
      exact absurd (hform.trans hold.symm) hvalue
  | some old =>
      rw [hold, Option.map_some] at hform
      obtain ⟨new, hnew, heq⟩ := Option.map_eq_some_iff.mp hform
      exact ⟨old, new, rfl, hnew, heq⟩

theorem isLive_of_value_ne (h : t.Rotated t' d lower upper operand whole graves)
    (hvalue : t'.value id ≠ t.value id) : t.isLive id = true := by
  by_contra hdead
  have hnode := h.before.node_eq_of_dead h.after h.kept.1 (Bool.eq_false_iff.mpr hdead)
  exact hvalue (congrArg Node.value hnode)

/-- The wording of the nodes that have met hangs in their slots 0, before and after. -/
theorem exists_words (h : t.Rotated t' d lower upper operand whole graves)
    (hid : id ∈ d.metWording lower operand) :
    ∃ a ∈ d.id :: lower.map Frame.id, t.Words a id ∧ t'.Words a id := by
  rcases List.mem_append.mp hid with hword | hword
  · refine ⟨d.id, List.mem_cons_self, h.node_before.words_foot ?_,
      h.after.words_of_mask h.node_after ?_⟩ <;>
      rwa [Frame.wording_fill h.slot_eq]
  · obtain ⟨low, f, high, rfl, hf⟩ := Path.exists_of_mem_wording hword
    have hfoot : t.Holds (Path.fill (high ++ upper)
        (f.fill (some (low.fill (d.fill (some operand)))))) graves := by
      have hbefore := h.node_before
      rwa [List.append_assoc, Path.fill_append] at hbefore
    have hmask : whole.mask (d.metWording (low ++ f :: high) operand) =
        (Path.fill (high ++ d :: upper) (f.fill (some (low.fill operand)))).mask
          (d.metWording (low ++ f :: high) operand) := by
      rw [h.mask_eq, List.append_assoc, Path.fill_append]
      rfl
    refine ⟨f.id, by simp, hfoot.words_foot ?_, h.after.words_of_mask hmask hf⟩
    refine f.wording_fill_subset (low.ids_fill_subset fun id hid => ?_) hf
    exact Subtree.mem_ids.mpr (.inr ⟨d.slot, operand, d.child_fill _, hid⟩)

theorem root_eq (h : t.Rotated t' d lower (f :: above) operand whole graves) :
    t'.root = t.root := by
  have hids : ∀ s s' : Subtree, (Path.fill (f :: above) s').id = (Path.fill (f :: above) s).id :=
    fun _ _ => above.id_fill_congr rfl
  have hbefore := h.node_before.root_eq
  rw [Path.fill_append] at hbefore
  rw [h.after.root_eq, hbefore, Subtree.id_eq_of_mask_eq h.node_after]
  exact hids _ _

/-- Where the three nodes stand that change places, before and after. -/
theorem stands (h : t.Rotated t' d lower (f :: above) operand whole graves)
    (hfirst : lower.head? = some first) (hlast : lower.getLast? = some last) :
    (t.Stands d.id first.place ∧ t.Stands last.id f.place ∧ t.Stands operand.id ⟨d.id, 1⟩) ∧
    (t'.Stands d.id f.place ∧ t'.Stands last.id ⟨d.id, 1⟩ ∧ t'.Stands operand.id first.place) := by
  have hd : d.place = ⟨d.id, 1⟩ := congrArg (Place.mk d.id) h.slot_eq
  obtain ⟨rest, rfl⟩ := List.head?_eq_some_iff.mp hfirst
  obtain ⟨init, hinit⟩ := List.getLast?_eq_some_iff.mp hlast
  have htop : ∀ s, Path.fill (first :: rest) s = last.fill (some (Path.fill init s)) := by
    intro s
    rw [hinit, Path.fill_append]
    rfl
  rw [← hd]
  refine ⟨⟨?_, ?_, h.before.stands_foot⟩, ?_, ?_, h.after.stands_of_mask h.mask_eq rfl⟩
  · have hfoot := h.node_before
    rw [List.cons_append] at hfoot
    exact hfoot.stands_foot
  · have hfoot := h.node_before
    rw [Path.fill_append, htop] at hfoot
    exact hfoot.stands_foot
  · exact h.after.stands_of_mask h.node_after rfl
  · have hmask : whole.mask (d.metWording (first :: rest) operand) =
        (Path.fill (d :: f :: above) (last.fill (some (Path.fill init operand)))).mask
          (d.metWording (first :: rest) operand) := by
      rw [h.mask_eq, Path.fill_append, htop]
    exact h.after.stands_of_mask hmask rfl

theorem child_eq (h : t.Rotated t' d lower upper operand whole graves)
    (hlast : lower.getLast? = some last) {parent : NodeId} {slot : Nat}
    (hmoved : ∀ id ∈ [d.id, last.id, operand.id],
      t.place id ≠ some ⟨parent, slot⟩ ∧ t'.place id ≠ some ⟨parent, slot⟩) :
    t'.child parent slot = t.child parent slot := by
  obtain ⟨hsize, hkept⟩ := h.kept
  cases hlive : t.isLive parent with
  | false =>
      rw [Tree.child, Tree.slots, h.before.node_eq_of_dead h.after hsize hlive]
      rfl
  | true =>
      have hlive' : t'.isLive parent = true := (hkept parent).2.1.trans hlive
      refine Option.ext fun child => ?_
      rw [h.after.child_iff hlive', h.before.child_iff hlive, (hkept child).2.1]
      refine and_congr_right fun _ => ?_
      by_cases hchild : child ∈ [d.id, last.id, operand.id]
      · exact iff_of_false (hmoved child hchild).2 (hmoved child hchild).1
      · simp only [List.mem_cons, List.not_mem_nil, or_false, not_or] at hchild
        rw [h.place_eq hlast hchild.1 hchild.2.1 hchild.2.2]

end Rotated

theorem Holds.rotated_of_lift {g : Grammar} {place : Place} {steps : Nat}
    (h : t.Holds (path.fill s) graves)
    (hlift : Edit.lift g s.id t = .ok (.relocated place steps) t') :
    ∃ (d : Frame) (operand : Subtree) (lower : Path) (f : Frame) (above : Path) (whole : Subtree),
      d.fill (some operand) = s ∧ path = lower ++ f :: above ∧ lower ≠ [] ∧
      steps = lower.length ∧ place = f.place ∧ g.allows f.kind f.slot d.kind = true ∧
      (∀ c ∈ lower, g.allows c.kind c.slot d.kind = false) ∧
      t.Rotated t' d lower (f :: above) operand whole graves := by
  obtain ⟨whole, gone, hwhole, hleaves, hafter⟩ := h.of_lift hlift
  cases hleaves
  rw [zero_add] at hafter
  obtain ⟨d, operand, lower, f, above, rfl, hd, rfl, hne, hsteps, hplace, hallows, hforbids,
    hmask⟩ := Subtree.rotates_of_lift hwhole
  exact ⟨d, operand, lower, f, above, whole, rfl, rfl, hne, hsteps, hplace, hallows, hforbids,
    hd, h, hafter, hmask⟩

/-- `t'` is `t` with a node turned round with its `steps` nearest ancestors, of which `top` is the
topmost. The node came from `origin`, with `operand` below it, and has gone to `place`. -/
structure IsRotation (g : Grammar) (node : NodeId) (place : Place) (steps : Nat) (t t' : Tree)
    (origin : Place) (top operand : NodeId) : Prop where
  one_le : 1 ≤ steps
  top_eq : ((t.ancestors node)[steps - 1]?).map Place.parent = some top
  /-- Where the three nodes stand that change places. -/
  node_stands : t.Stands node origin
  top_stands : t.Stands top place
  operand_stands : t.Stands operand ⟨node, 1⟩
  /-- The grammar allows the node where it goes, and in no slot on the way there. -/
  allowed : g.allows (t.kind place.parent) place.slot (t.kind node) = true
  forbidden : ∀ p ∈ (t.ancestors node).take steps,
    g.allows (t.kind p.parent) p.slot (t.kind node) = false
  node_lands : t'.Stands node place
  top_hangs : t'.Stands top ⟨node, 1⟩
  operand_stays : t'.Stands operand origin
  /-- Seen from the operand, the node comes behind those that it has crossed. -/
  ancestors_operand : t'.ancestors operand =
    (t.ancestors node).take steps ++ ⟨node, 1⟩ :: (t.ancestors node).drop steps
  /-- No other node stands elsewhere, and no other slot has another child. -/
  place_eq : ∀ id ∉ [node, top, operand], t'.place id = t.place id
  child_eq : ∀ id slot, (⟨id, slot⟩ : Place) ∉ [origin, place, ⟨node, 1⟩] →
    t'.child id slot = t.child id slot
  root_eq : t'.root = t.root
  size_eq : t'.nodes.size = t.nodes.size
  kind_eq : ∀ id, t'.kind id = t.kind id
  isLive_eq : ∀ id, t'.isLive id = t.isLive id
  length_slots_eq : ∀ id, (t'.slots id).length = (t.slots id).length
  /-- A value only changes to one of its form, below slot 0 of the node or of one that it has
  crossed, where it has been and still is. -/
  value_eq : ∀ id, t'.value id ≠ t.value id →
    (∃ old new, t.value id = some old ∧ t'.value id = some new ∧ new.form = old.form) ∧
    ∃ a ∈ node :: ((t.ancestors node).take steps).map Place.parent,
      t.Words a id ∧ t'.Words a id
  /-- Where only constants have a value, only constants change. -/
  kind_of_value_ne : (∀ id, t.isLive id = true → (t.value id).isSome = true →
    t.kind id = .constant) → ∀ id, t'.value id ≠ t.value id → t.kind id = .constant

theorem Rotated.isRotation {g : Grammar} {d f : Frame} {lower above : Path} {operand : Subtree}
    (h : t.Rotated t' d lower (f :: above) operand whole graves) (hne : lower ≠ [])
    (hallows : g.allows f.kind f.slot d.kind = true)
    (hforbids : ∀ c ∈ lower, g.allows c.kind c.slot d.kind = false) :
    t.IsRotation g d.id f.place lower.length t' (lower.head hne).place (lower.getLast hne).id
      operand.id := by
  have hpos := List.length_pos_iff.mpr hne
  have hlast := List.getLast?_eq_some_getLast hne
  obtain ⟨⟨hnode, htop, hoperand⟩, hnode', htop', hoperand'⟩ :=
    h.stands (List.head?_eq_some_head hne) hlast
  obtain ⟨hsize, hkept⟩ := h.kept
  have hfoot := h.node_before
  have hkind : t.kind d.id = d.kind := hfoot.represents.kind_foot
  have hancestors : t.ancestors d.id = lower.map Frame.place ++ (f :: above).map Frame.place := by
    rw [← List.map_append]
    exact hfoot.ancestors_foot
  have htake : (t.ancestors d.id).take lower.length = lower.map Frame.place := by
    rw [hancestors, List.take_left' (List.length_map _)]
  have hdrop : (t.ancestors d.id).drop lower.length = (f :: above).map Frame.place := by
    rw [hancestors, List.drop_left' (List.length_map _)]
  constructor
  case one_le => exact hpos
  case top_eq =>
    rw [hancestors, List.getElem?_append_left (by rw [List.length_map]; omega),
      List.getElem?_map, ← List.getLast?_eq_getElem?, hlast]
    rfl
  case node_stands => exact hnode
  case top_stands => exact htop
  case operand_stands => exact hoperand
  case allowed =>
    have hf : t.kind f.place.parent = f.kind := hfoot.kind_of_mem (by simp)
    rwa [hf, hkind]
  case forbidden =>
    rw [htake]
    intro p hp
    obtain ⟨c, hc, rfl⟩ := List.mem_map.mp hp
    have hck : t.kind c.place.parent = c.kind := hfoot.kind_of_mem (List.mem_append_left _ hc)
    rw [hck, hkind]
    exact hforbids c hc
  case node_lands => exact hnode'
  case top_hangs => exact htop'
  case operand_stays => exact hoperand'
  case ancestors_operand =>
    rw [h.after.ancestors_of_mask h.mask_eq, htake, hdrop, List.map_append, List.map_cons,
      Frame.place, h.slot_eq]
  case place_eq =>
    intro id hid
    simp only [List.mem_cons, List.not_mem_nil, or_false, not_or] at hid
    exact h.place_eq hlast hid.1 hid.2.1 hid.2.2
  case child_eq =>
    intro id slot hplace
    refine h.child_eq hlast fun moved hmoved => ?_
    simp only [List.mem_cons, List.not_mem_nil, or_false, not_or] at hplace hmoved
    rcases hmoved with rfl | rfl | rfl
    · rw [hnode.1, hnode'.1]
      grind
    · rw [htop.1, htop'.1]
      grind
    · rw [hoperand.1, hoperand'.1]
      grind
  case root_eq => exact h.root_eq
  case size_eq => exact hsize
  case kind_eq => exact fun id => (hkept id).1
  case isLive_eq => exact fun id => (hkept id).2.1
  case length_slots_eq => exact fun id => (hkept id).2.2.1
  case value_eq =>
    intro id hvalue
    refine ⟨h.exists_values hvalue, ?_⟩
    rw [htake, List.map_map]
    exact h.exists_words (h.mem_of_value_ne hvalue)
  case kind_of_value_ne =>
    intro hconstant id hvalue
    obtain ⟨_, _, hold, _⟩ := h.exists_values hvalue
    exact hconstant id (h.isLive_of_value_ne hvalue) (by rw [hold]; rfl)

/-- Where a node ends that is lifted, there it has been turned round with the ancestors that it has
crossed, and nothing else has happened. -/
theorem Rooted.rotation_of_lift {g : Grammar} {node : NodeId} {way : List Nat} {place : Place}
    {steps : Nat} (h : t.Rooted) (hway : t.follow t.root way = some node)
    (hlift : Edit.lift g node t = .ok (.relocated place steps) t') :
    ∃ origin top operand, t.IsRotation g node place steps t' origin top operand := by
  obtain ⟨graves, hholds⟩ := h.exists_holds
  obtain ⟨path, s, hfill, rfl⟩ := hholds.exists_path_of_isLive (h.isLive_iff.mpr ⟨way, hway⟩)
  rw [← hfill] at hholds
  obtain ⟨d, operand, lower, f, above, whole, rfl, rfl, hne, rfl, rfl, hallows, hforbids, hrot⟩ :=
    hholds.rotated_of_lift hlift
  exact ⟨_, _, _, hrot.isRotation hne hallows hforbids⟩

/-- A rename is lifted past a condition and a projection. -/
theorem Rooted.rotation_of_lift_rename :
    let e := Expr.assign "T" (.projection ["y"] (.condition (.name "y")
      (.rename "y" "a" (.input1 "t"))))
    ∃ t t', ofExpr e = .ok t ∧ t.Rooted ∧ t.follow t.root [1, 1, 1] = some 6 ∧
      Edit.lift .flatSelect 6 t = .ok (.relocated ⟨9, 1⟩ 2) t' ∧
      ∃ origin top operand, t.IsRotation .flatSelect 6 ⟨9, 1⟩ 2 t' origin top operand := by
  intro e
  let t := planted e
  have ht : ofExpr e = .ok t := ofExpr_eq_ok.mpr ⟨rfl, rfl⟩
  have h := (Reached.built (c := .strict) ht).intact.consistent_links.rooted
  have hway : t.follow t.root [1, 1, 1] = some 6 := by decide +kernel
  have hends : (match Edit.lift .flatSelect 6 t with
      | .ok outcome _ => decide (outcome = .relocated ⟨9, 1⟩ 2)
      | .error _ _ => false) = true := by decide +kernel
  cases hlift : Edit.lift .flatSelect 6 t with
  | error cause t' =>
      rw [hlift] at hends
      cases hends
  | ok outcome t' =>
      rw [hlift] at hends
      obtain rfl := of_decide_eq_true hends
      exact ⟨t, t', ht, h, hway, hlift, h.rotation_of_lift hway hlift⟩

end Tree

end FlatSelect
