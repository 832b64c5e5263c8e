import FlatSelect.Proofs.Regular
import FlatSelect.Proofs.Termination

/-!
# Links in both directions

The records of a subtree that stands nowhere are linked: whoever stands in a slot says so, and is
what the slot says stands there. Nodes that are removed together stay linked with each other and
with nothing else. The nodes that lifting and inlining leave behind are moreover at rest: none of
them can be lifted, so nothing ever happens to a dead node again.
-/

namespace FlatSelect

namespace Path

theorem place?_concat (path : Path) (top : Frame) :
    place? (path ++ [top]) = path.place?.or (some top.place) := by
  cases path <;> rfl

end Path

namespace Subtree

mutual
/-- Every record is that of a node at the foot of a path. -/
theorem exists_path_of_mem_records {e : NodeId × Node} : ∀ {place : Option Place} {s : Subtree},
    e ∈ s.records place → ∃ (path : Path) (below : Subtree), path.fill below = s ∧
      e = (below.id, below.top (path.place?.or place))
  | place, .node id kind value slots, h => by
    rw [records, Multiset.mem_add, Multiset.mem_singleton] at h
    rcases h with rfl | h
    · exact ⟨[], _, rfl, rfl⟩
    · obtain ⟨left, c, right, rfl, path, below, hfill, rfl⟩ := exists_path_of_mem_recordsIn h
      refine ⟨path ++ [⟨id, kind, value, left, right⟩], below, ?_, ?_⟩
      · rw [Path.fill_append, hfill]
        rfl
      · rw [Path.place?_concat, Option.or_assoc, Nat.zero_add]
        rfl
theorem exists_path_of_mem_recordsIn {e : NodeId × Node} {parent : NodeId} :
    ∀ {slot : Nat} {slots : List (Option Subtree)}, e ∈ recordsIn parent slot slots →
      ∃ left c right, slots = left ++ some c :: right ∧ ∃ (path : Path) (below : Subtree),
        path.fill below = c ∧
          e = (below.id, below.top (path.place?.or (some ⟨parent, slot + left.length⟩)))
  | _, [], h => absurd h (Multiset.notMem_zero e)
  | slot, none :: rest, h => by
    obtain ⟨left, c, right, rfl, hpath⟩ :=
      @exists_path_of_mem_recordsIn e parent (slot + 1) rest h
    rw [Nat.add_right_comm] at hpath
    exact ⟨none :: left, c, right, rfl, hpath⟩
  | slot, some s :: rest, h => by
    rw [recordsIn, Multiset.mem_add] at h
    rcases h with h | h
    · exact ⟨[], s, rest, rfl, exists_path_of_mem_records h⟩
    · obtain ⟨left, c, right, rfl, hpath⟩ :=
        @exists_path_of_mem_recordsIn e parent (slot + 1) rest h
      rw [Nat.add_right_comm] at hpath
      exact ⟨some s :: left, c, right, rfl, hpath⟩
end

theorem mem_records_fill (path : Path) (s : Subtree) :
    (s.id, s.top path.place?) ∈ (path.fill s).records none := by
  rw [path.records_fill, s.records_eq]
  simp

end Subtree

namespace Records

/-- Whatever a slot says stands there stands there by its own account, and the other way round. -/
structure Linked (m : Records) : Prop where
  down {parent child : NodeId} {n : Node} {slot : Nat} (h : (parent, n) ∈ m)
    (hslot : n.slots[slot]? = some (some child)) :
    ∃ n', (child, n') ∈ m ∧ n'.place = some ⟨parent, slot⟩
  up {child : NodeId} {n : Node} {place : Place} (h : (child, n) ∈ m)
    (hplace : n.place = some place) :
    ∃ n', (place.parent, n') ∈ m ∧ n'.slots[place.slot]? = some (some child)

theorem Linked.add {m m' : Records} (h : m.Linked) (h' : m'.Linked) : (m + m').Linked where
  down hmem hslot := by
    rcases Multiset.mem_add.mp hmem with hmem | hmem
    · obtain ⟨n, hn, hplace⟩ := h.down hmem hslot
      exact ⟨n, Multiset.mem_add.mpr (.inl hn), hplace⟩
    · obtain ⟨n, hn, hplace⟩ := h'.down hmem hslot
      exact ⟨n, Multiset.mem_add.mpr (.inr hn), hplace⟩
  up hmem hplace := by
    rcases Multiset.mem_add.mp hmem with hmem | hmem
    · obtain ⟨n, hn, hslot⟩ := h.up hmem hplace
      exact ⟨n, Multiset.mem_add.mpr (.inl hn), hslot⟩
    · obtain ⟨n, hn, hslot⟩ := h'.up hmem hplace
      exact ⟨n, Multiset.mem_add.mpr (.inr hn), hslot⟩

/-- Nodes may change in anything but their links. -/
theorem Linked.of_links {m m' : Records} (h : m.Linked)
    (hnew : ∀ {id n}, (id, n) ∈ m → ∃ n', (id, n') ∈ m' ∧ n'.slots = n.slots ∧ n'.place = n.place)
    (hold : ∀ {id n}, (id, n) ∈ m' → ∃ n', (id, n') ∈ m ∧ n'.slots = n.slots ∧ n'.place = n.place) :
    m'.Linked where
  down hmem hslot := by
    obtain ⟨n, hn, hslots, _⟩ := hold hmem
    obtain ⟨n', hn', hplace⟩ := h.down hn (hslots ▸ hslot)
    obtain ⟨n'', hn'', _, hplace'⟩ := hnew hn'
    exact ⟨n'', hn'', hplace'.trans hplace⟩
  up hmem hplace := by
    obtain ⟨n, hn, _, hplaces⟩ := hold hmem
    obtain ⟨n', hn', hslot⟩ := h.up hn (hplaces.trans hplace)
    obtain ⟨n'', hn'', hslots, _⟩ := hnew hn'
    exact ⟨n'', hn'', hslots ▸ hslot⟩

theorem Linked.bury {m : Records} (h : m.Linked) : m.bury.Linked := by
  refine h.of_links ?_ ?_
  · intro id n hn
    exact ⟨_, Multiset.mem_map_of_mem _ hn, rfl, rfl⟩
  · intro id n hn
    obtain ⟨⟨id', n'⟩, hn', heq⟩ := Multiset.mem_map.mp hn
    cases heq
    exact ⟨n', hn', rfl, rfl⟩

theorem linked_records (s : Subtree) : (s.records none).Linked where
  down hmem hslot := by
    obtain ⟨path, below, rfl, heq⟩ := Subtree.exists_path_of_mem_records hmem
    cases heq
    rw [Subtree.top, List.getElem?_map, Option.map_eq_some_iff] at hslot
    obtain ⟨hole, hget, hhole⟩ := hslot
    obtain ⟨c, rfl, rfl⟩ := Option.map_eq_some_iff.mp hhole
    obtain ⟨f, rfl, rfl⟩ := Subtree.exists_frame_of_slot hget
    exact ⟨_, Subtree.mem_records_fill (f :: path) c, rfl⟩
  up hmem hplace := by
    obtain ⟨path, below, rfl, heq⟩ := Subtree.exists_path_of_mem_records hmem
    cases heq
    cases path with
    | nil => cases hplace
    | cons f above =>
        cases hplace
        refine ⟨_, Subtree.mem_records_fill above (f.fill (some below)), ?_⟩
        simp [Subtree.top, Frame.place, Frame.slot]

/-- Dead nodes to which nothing will happen. -/
structure Resting (m : Records) : Prop where
  dead : ∀ e ∈ m, e.2.live = false
  linked : m.Linked
  idle : ∀ e ∈ m, e.2.kind.hasOperand = true → e.2.place = none

theorem resting_zero : Resting 0 where
  dead e he := absurd he (Multiset.notMem_zero e)
  linked := ⟨fun h => absurd h (Multiset.notMem_zero _), fun h => absurd h (Multiset.notMem_zero _)⟩
  idle e he := absurd he (Multiset.notMem_zero e)

theorem Resting.add {m m' : Records} (h : m.Resting) (h' : m'.Resting) : (m + m').Resting where
  dead e he := (Multiset.mem_add.mp he).elim (h.dead e) (h'.dead e)
  linked := h.linked.add h'.linked
  idle e he := (Multiset.mem_add.mp he).elim (h.idle e) (h'.idle e)

/-- A dead node may be given another value. -/
theorem Resting.setValue {m : Records} {id : NodeId} {n : Node} (value : Value)
    (h : Resting ({(id, n)} + m)) :
    Resting ({(id, { n with value := some value })} + m) := by
  have hmem : ∀ {e : NodeId × Node}, e ∈ ({(id, { n with value := some value })} + m : Records) →
      e = (id, { n with value := some value }) ∨ e ∈ m := by
    intro e he
    rwa [Multiset.mem_add, Multiset.mem_singleton] at he
  have htop : (id, n) ∈ ({(id, n)} + m : Records) := by simp
  refine ⟨?_, h.linked.of_links ?_ ?_, ?_⟩
  · intro e he
    rcases hmem he with rfl | he
    · exact h.dead (id, n) htop
    · exact h.dead e (Multiset.mem_add.mpr (.inr he))
  · intro key node he
    rcases Multiset.mem_add.mp he with he | he
    · cases Multiset.mem_singleton.mp he
      exact ⟨_, Multiset.mem_add.mpr (.inl (Multiset.mem_singleton_self _)), rfl, rfl⟩
    · exact ⟨node, Multiset.mem_add.mpr (.inr he), rfl, rfl⟩
  · intro key node he
    rcases hmem he with heq | he
    · cases heq
      exact ⟨n, htop, rfl, rfl⟩
    · exact ⟨node, Multiset.mem_add.mpr (.inr he), rfl, rfl⟩
  · intro e he
    rcases hmem he with rfl | he
    · exact h.idle (id, n) htop
    · exact h.idle e (Multiset.mem_add.mpr (.inr he))

end Records

namespace Subtree

mutual
theorem countP_records (marked : Kind → Bool) : ∀ (place : Option Place) (s : Subtree),
    (s.records place).countP (fun e => marked e.2.kind = true) = s.count marked
  | place, .node id kind value slots => by
    rw [records, Multiset.countP_add, countP_recordsIn marked id 0 slots, count,
      ← Multiset.cons_zero, Multiset.countP_cons]
    simp only [Multiset.countP_zero, Nat.zero_add]
    rfl
theorem countP_recordsIn (marked : Kind → Bool) (parent : NodeId) : ∀ (slot : Nat)
    (slots : List (Option Subtree)),
    (recordsIn parent slot slots).countP (fun e => marked e.2.kind = true) = countIn marked slots
  | _, [] => rfl
  | slot, none :: rest => countP_recordsIn marked parent (slot + 1) rest
  | slot, some s :: rest => by
    rw [recordsIn, Multiset.countP_add, countP_records marked _ s,
      countP_recordsIn marked parent (slot + 1) rest, countIn]
end

/-- A subtree is at rest when it is dead, if nothing below its top can be lifted. -/
theorem resting_bury {s : Subtree} (h : countIn Kind.hasOperand s.slots = 0) :
    (s.records none).bury.Resting where
  dead := Records.dead_bury
  linked := (Records.linked_records s).bury
  idle e he := by
    obtain ⟨e', he', rfl⟩ := Multiset.mem_map.mp he
    rw [s.records_eq, Multiset.mem_add, Multiset.mem_singleton] at he'
    intro hkind
    rcases he' with rfl | he'
    · rfl
    · rw [← countP_recordsIn Kind.hasOperand s.id 0, Multiset.countP_eq_zero] at h
      exact absurd hkind (h e' he')

/-- A constant is nothing that can be lifted. -/
theorem Regular.count_of_constant {c : Contract} {s : Subtree} (h : s.Regular c)
    (hkind : s.kind = .constant) : s.count Kind.hasOperand = 0 := by
  have hslots := h.slots_of_constant hkind
  obtain ⟨id, kind, value, slots⟩ := s
  obtain rfl : kind = .constant := hkind
  obtain rfl : slots = [] := hslots
  rfl

/-! ### What a lift leaves behind -/

variable {c : Contract} {s s' : Subtree} {outcome : Lift.Outcome} {gone : Records}

/-- A condition is only absorbed by giving up its predicate. -/
theorem eq_conjoinConditions_of_absorbed {rule : Transfer} {fresh : NodeId}
    {node parent parent' : Subtree} {slot : Nat} (hkind : node.kind = .condition)
    (hrule : Transfer.between? node.kind parent.kind = some rule)
    (hcross : rule.cross fresh node parent slot = .ok (.absorbed parent')) :
    rule = .conjoinConditions := by
  have hmem := Transfer.mem_table_of_between? hrule
  simp only [hkind, Transfer.table, List.mem_cons, Prod.mk.injEq, reduceCtorEq, false_and,
    true_and, false_or, List.not_mem_nil, or_false] at hmem
  rcases hmem with ⟨_, rfl⟩ | ⟨_, rfl⟩ | ⟨_, rfl⟩ | ⟨_, rfl⟩
  · obtain ⟨_, _, h⟩ := exists_of_bind_eq_ok hcross
    obtain ⟨_, _, h⟩ := exists_of_bind_eq_ok h
    cases h
  · cases hcross
  · cases hcross
  · rfl

theorem countIn_slots_congr_blank (marked : Kind → Bool) (h : s'.blank = s.blank) :
    countIn marked s'.slots = countIn marked s.slots := by
  have hslots : blankIn s'.slots = blankIn s.slots := by
    rw [blankIn_eq_map, ← blank_slots, h, blank_slots, blankIn_eq_map]
  rw [← countIn_blankIn, hslots, countIn_blankIn]

/-- What is left of a regular operator that was absorbed is at rest: it has lost its operand, and
its predicate if it had one. -/
theorem Regular.resting_of_leaves (h : s.Regular c)
    (hleaves : (s.setChild 1 none).Leaves outcome gone) : gone.Resting := by
  cases hleaves with
  | alreadyLegal | relocated => exact Records.resting_zero
  | @absorbed node' parent parent' rule fresh slot steps hnode hrule hcross =>
      have hkind : node'.kind = s.kind := by rw [← blank_kind, hnode, blank_kind, setChild_kind]
      have hoperand : s.kind.hasOperand = true := by
        have hmem := Transfer.mem_table_of_between? hrule
        rw [hkind] at hmem
        revert hmem
        cases s.kind <;> simp [Transfer.table, Kind.hasOperand]
      obtain ⟨parameter, operand, hslots, hregular, _, hconstant⟩ :=
        h.exists_slots (Kind.arity_of_hasOperand hoperand)
      have hleft : (s.setChild 1 none).slots = [some parameter, none] := by
        rw [setChild_slots, hslots]
        rfl
      apply resting_bury
      by_cases hcondition : node'.kind = .condition
      · obtain rfl := eq_conjoinConditions_of_absorbed hcondition hrule hcross
        have hblank : (node'.setChild 0 none).blank =
            ((s.setChild 1 none).setChild 0 none).blank := by
          rw [setChild_blank, hnode, ← setChild_blank]
        rw [Transfer.remnant, countIn_slots_congr_blank _ hblank, setChild_slots, hleft]
        rfl
      · have hremnant : rule.remnant node' = node' := by
          cases rule <;> first | rfl | skip
          have hmem := Transfer.mem_table_of_between? hrule
          simp [Transfer.table, hcondition] at hmem
        have hkeeps : s.kind.hasParameter = true := by
          rw [hkind] at hcondition
          revert hoperand hcondition
          cases s.kind <;> decide
        rw [hremnant, countIn_slots_congr_blank _ hnode, hleft]
        exact congrArg (· + 0) (hregular.count_of_constant (hconstant hkeeps))

end Subtree

namespace Edit

/-- Nothing happens to a node that cannot be lifted or stands nowhere. -/
theorem lift_of_idle {t : Tree} {node : NodeId} (g : Grammar)
    (h : (t.kind node).hasOperand = true → t.place node = none) :
    lift g node t = .ok .alreadyLegal t ∨
      ∃ obstacle, lift g node t = .error (.nonCanonicalizable obstacle) t := by
  rw [lift, atomically, Lift.run_eq]
  cases hplace : t.place node with
  | none => exact .inr ⟨_, rfl⟩
  | some place =>
      have hkind : (t.kind node).hasOperand = false := by
        rw [← Bool.not_eq_true]
        intro hkind
        rw [h hkind] at hplace
        cases hplace
      cases hallows : g.allows (t.kind place.parent) place.slot (t.kind node) with
      | true => exact .inl (by simp [hallows])
      | false => exact .inr ⟨_, by simp [hallows, hkind]; rfl⟩

end Edit

end FlatSelect
