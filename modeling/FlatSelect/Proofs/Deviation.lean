import FlatSelect.Deviation
import FlatSelect.Proofs.Rise

/-!
# Where deviations stand

Every node of a whole stands at the foot of a path. A deviation is a node that the foot of its path
does not take, so a lift never finds it legal. Where the way down to a node is clear of deviations,
the first deviation of the whole is the first one below the node.
-/

namespace FlatSelect

namespace Path

/-- The kinds that may stand at the foot of a path. Where there is no path, `roots` may. -/
def expected (g : Grammar) (roots : KindSet) : Path → KindSet
  | [] => roots
  | f :: _ => g.childKinds f.kind f.slot

/-- Whether the nodes of a path, and all that hangs beside it further left, are where they may
be. -/
def Clear (g : Grammar) (roots : KindSet) : Path → Prop
  | [] => True
  | f :: above => (expected g roots above).contains f.kind = true ∧
    Subtree.deviationIn? g f.kind 0 f.before = none ∧ Clear g roots above

/-- Whether nothing that hangs beside a path further right is where it may not be. -/
def ClearAfter (g : Grammar) : Path → Prop
  | [] => True
  | f :: above => Subtree.deviationIn? g f.kind (f.slot + 1) f.after = none ∧ ClearAfter g above

theorem expected_concat (g : Grammar) (roots : KindSet) (path : Path) (top : Frame) :
    expected g roots (path ++ [top]) = path.expected g (g.childKinds top.kind top.slot) := by
  cases path <;> rfl

theorem Clear.concat {g : Grammar} {roots : KindSet} {path : Path} {top : Frame}
    (h : path.Clear g (g.childKinds top.kind top.slot)) (htop : roots.contains top.kind = true)
    (hbefore : Subtree.deviationIn? g top.kind 0 top.before = none) :
    Clear g roots (path ++ [top]) := by
  induction path with
  | nil => exact ⟨htop, hbefore, trivial⟩
  | cons f above ih =>
      obtain ⟨hkind, hleft, habove⟩ := h
      refine ⟨?_, hleft, ih habove⟩
      rw [← expected_concat g roots] at hkind
      exact hkind

theorem mem_ids_fill {node : NodeId} {s : Subtree} (path : Path) (h : node ∈ s.ids) :
    node ∈ (path.fill s).ids := by
  rw [← Multiset.mem_coe, ← Subtree.keys_records none, records_fill, Multiset.map_add,
    Multiset.mem_add, Subtree.keys_records, Multiset.mem_coe]
  exact .inl h

end Path

namespace Subtree

theorem id_mem_ids (s : Subtree) : s.id ∈ s.ids := by
  cases s
  simp [ids, preorder]

theorem preorderAll_append (left right : List (Option Subtree)) :
    preorderAll (left ++ right) = preorderAll left ++ preorderAll right := by
  induction left with
  | nil => rfl
  | cons head rest ih => cases head <;> simp [preorderAll, ih]

theorem mem_preorderAll {n : Subtree} {slots : List (Option Subtree)} :
    n ∈ preorderAll slots ↔ ∃ s, some s ∈ slots ∧ n ∈ s.preorder := by
  induction slots with
  | nil => simp [preorderAll]
  | cons head rest ih => cases head <;> simp [preorderAll, ih, or_and_right, exists_or]

theorem mem_preorder {n s : Subtree} :
    n ∈ s.preorder ↔ n = s ∨ ∃ child, some child ∈ s.slots ∧ n ∈ child.preorder := by
  rw [← mem_preorderAll]
  cases s
  exact List.mem_cons

/-- Something holds of all nodes if it holds of the top and of all that hang below it. -/
theorem forall_mem_preorder {s : Subtree} {holds : Subtree → Prop} :
    (∀ n ∈ s.preorder, holds n) ↔
      holds s ∧ ∀ child, some child ∈ s.slots → ∀ n ∈ child.preorder, holds n := by
  simp only [mem_preorder (s := s)]
  constructor
  · intro h
    exact ⟨h s (.inl rfl), fun child hchild n hn => h n (.inr ⟨child, hchild, hn⟩)⟩
  · rintro ⟨htop, hbelow⟩ n (rfl | ⟨child, hchild, hn⟩)
    · exact htop
    · exact hbelow child hchild n hn

mutual
/-- Every node stands at the foot of a path. -/
theorem exists_path_of_mem_preorder {below : Subtree} :
    ∀ {s : Subtree}, below ∈ s.preorder → ∃ path : Path, path.fill below = s
  | .node id kind value slots, h => by
    rw [preorder, List.mem_cons] at h
    rcases h with rfl | h
    · exact ⟨[], rfl⟩
    · obtain ⟨left, c, right, rfl, path, hfill⟩ := exists_path_of_mem_preorderAll h
      refine ⟨path ++ [⟨id, kind, value, left, right⟩], ?_⟩
      rw [Path.fill_append, hfill]
      rfl
theorem exists_path_of_mem_preorderAll {below : Subtree} :
    ∀ {slots : List (Option Subtree)}, below ∈ preorderAll slots →
      ∃ left c right, slots = left ++ some c :: right ∧ ∃ path : Path, path.fill below = c
  | [], h => absurd h List.not_mem_nil
  | none :: rest, h => by
    obtain ⟨left, c, right, rfl, hpath⟩ := @exists_path_of_mem_preorderAll below rest h
    exact ⟨none :: left, c, right, rfl, hpath⟩
  | some s :: rest, h => by
    rw [preorderAll, List.mem_append] at h
    rcases h with h | h
    · exact ⟨[], s, rest, rfl, exists_path_of_mem_preorder h⟩
    · obtain ⟨left, c, right, rfl, hpath⟩ := @exists_path_of_mem_preorderAll below rest h
      exact ⟨some s :: left, c, right, rfl, hpath⟩
end

/-- Every number is that of a node at the foot of a path. -/
theorem exists_path_of_mem {s : Subtree} {node : NodeId} (h : node ∈ s.ids) :
    ∃ (path : Path) (below : Subtree), path.fill below = s ∧ below.id = node := by
  obtain ⟨below, hbelow, rfl⟩ := List.mem_map.mp h
  obtain ⟨path, hpath⟩ := exists_path_of_mem_preorder hbelow
  exact ⟨path, below, hpath, rfl⟩

mutual
/-- The first deviation stands at the foot of a clear path that does not take it. -/
theorem exists_path_of_deviation {g : Grammar} {expected : KindSet} {node : NodeId} :
    ∀ {s : Subtree}, s.deviation? g expected = some node →
      ∃ (path : Path) (below : Subtree), path.fill below = s ∧ below.id = node ∧
        path.Clear g expected ∧ (path.expected g expected).contains below.kind = false
  | .node id kind value slots, h => by
    rw [deviation?] at h
    split at h
    case isTrue hexpected =>
      obtain ⟨left, c, right, rfl, hleft, path, below, hfill, hid, hclear, htakes⟩ :=
        exists_path_of_deviation_slots h
      rw [Nat.zero_add] at hclear htakes
      refine ⟨path ++ [⟨id, kind, value, left, right⟩], below, ?_, hid, ?_, ?_⟩
      · rw [Path.fill_append, hfill]
        rfl
      · exact @Path.Clear.concat _ _ _ ⟨id, kind, value, left, right⟩ hclear hexpected hleft
      · rw [Path.expected_concat]
        exact htakes
    case isFalse hexpected =>
      exact ⟨[], _, rfl, Option.some.inj h, trivial, Bool.eq_false_iff.mpr hexpected⟩
theorem exists_path_of_deviation_slots {g : Grammar} {parent : Kind} {node : NodeId} :
    ∀ {slots : List (Option Subtree)} {slot : Nat},
      deviationIn? g parent slot slots = some node →
      ∃ left c right, slots = left ++ some c :: right ∧ deviationIn? g parent slot left = none ∧
        ∃ (path : Path) (below : Subtree), path.fill below = c ∧ below.id = node ∧
          path.Clear g (g.childKinds parent (slot + left.length)) ∧
          (path.expected g (g.childKinds parent (slot + left.length))).contains below.kind = false
  | [], _, h => absurd h (by simp [deviationIn?])
  | none :: rest, slot, h => by
    obtain ⟨left, c, right, rfl, hleft, hpath⟩ :=
      @exists_path_of_deviation_slots g parent node rest (slot + 1) h
    rw [Nat.add_right_comm] at hpath
    exact ⟨none :: left, c, right, rfl, hleft, hpath⟩
  | some s :: rest, slot, h => by
    rw [deviationIn?, Option.or_eq_some_iff] at h
    rcases h with h | ⟨hs, h⟩
    · exact ⟨[], s, rest, rfl, rfl, exists_path_of_deviation h⟩
    · obtain ⟨left, c, right, rfl, hleft, hpath⟩ :=
        @exists_path_of_deviation_slots g parent node rest (slot + 1) h
      rw [Nat.add_right_comm] at hpath
      refine ⟨some s :: left, c, right, rfl, ?_, hpath⟩
      rw [deviationIn?, hs, Option.none_or, hleft]
end

theorem deviationIn?_append (g : Grammar) (parent : Kind) (slot : Nat)
    (left right : List (Option Subtree)) : deviationIn? g parent slot (left ++ right) =
      (deviationIn? g parent slot left).or (deviationIn? g parent (slot + left.length) right) := by
  induction left generalizing slot with
  | nil => rfl
  | cons child rest ih =>
      have hslot : slot + (rest.length + 1) = slot + 1 + rest.length := by omega
      cases child <;> simp [deviationIn?, ih, hslot, Option.or_assoc]

/-- A node whose kind may stand where it does, and which has nothing wrong before its open slot. -/
theorem deviation?_fill {g : Grammar} {expected : KindSet} {f : Frame} (s : Subtree)
    (hkind : expected.contains f.kind = true) (hbefore : deviationIn? g f.kind 0 f.before = none) :
    (f.fill (some s)).deviation? g expected = (s.deviation? g (g.childKinds f.kind f.slot)).or
      (deviationIn? g f.kind (f.slot + 1) f.after) := by
  rw [Frame.fill, deviation?, if_pos hkind, deviationIn?_append, hbefore, Option.none_or,
    deviationIn?, Nat.zero_add]
  rfl

variable {g : Grammar} {roots : KindSet} {path : Path} {s : Subtree}

/-- The first deviation below a clear path is the first of the whole. -/
theorem deviation?_fill_of_some {node : NodeId} (hclear : path.Clear g roots)
    (h : s.deviation? g (path.expected g roots) = some node) :
    (path.fill s).deviation? g roots = some node := by
  induction path generalizing s with
  | nil => exact h
  | cons f above ih =>
      obtain ⟨hkind, hbefore, habove⟩ := hclear
      refine ih habove ?_
      rw [deviation?_fill s hkind hbefore]
      exact Option.or_eq_some_iff.mpr (.inl h)

theorem deviation?_fill_of_none (hclear : path.Clear g roots) (hafter : path.ClearAfter g)
    (h : s.deviation? g (path.expected g roots) = none) :
    (path.fill s).deviation? g roots = none := by
  induction path generalizing s with
  | nil => exact h
  | cons f above ih =>
      obtain ⟨hkind, hbefore, habove⟩ := hclear
      refine ih habove hafter.2 ?_
      rw [deviation?_fill s hkind hbefore]
      exact Option.or_eq_none_iff.mpr ⟨h, hafter.1⟩

theorem deviation?_of_not_expected {expected : KindSet}
    (h : expected.contains s.kind = false) : s.deviation? g expected = some s.id := by
  obtain ⟨id, kind, value, slots⟩ := s
  rw [deviation?, if_neg (by rw [show expected.contains kind = false from h]; decide)]
  rfl

theorem contains_of_deviation? {expected : KindSet} (h : s.deviation? g expected = none) :
    expected.contains s.kind = true := by
  cases hkind : expected.contains s.kind with
  | true => rfl
  | false =>
      rw [deviation?_of_not_expected hkind] at h
      cases h

/-- Of what may stand somewhere, only the kind of the top matters. -/
theorem deviation?_of_contains {expected next : KindSet} (h : s.deviation? g expected = none)
    (hnext : next.contains s.kind = true) : s.deviation? g next = none := by
  have hkind := contains_of_deviation? h
  obtain ⟨id, top, value, slots⟩ := s
  rw [deviation?, if_pos (show expected.contains top = true from hkind)] at h
  rw [deviation?, if_pos (show next.contains top = true from hnext), h]

end Subtree

end FlatSelect
