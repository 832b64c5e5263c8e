import FlatSelect.Proofs.Consistent

/-!
# Numbering in postorder

Planting an expression and grafting a subtree push the children of a node before the node. So the
nodes that they make have consecutive numbers in postorder, whatever the numbers of the original
are and whichever of its slots are vacant (`Tree.Stores.graft_copy`). A copy in an empty tree is all
that there is in it: every node is live, and the numbers are the positions in postorder.
-/

namespace FlatSelect

namespace Subtree

mutual
/-- The nodes, each behind its children, and these from slot to slot. -/
def postorder : Subtree → List Subtree
  | .node id kind value slots => postorderAll slots ++ [.node id kind value slots]
/-- The nodes below several slots. -/
def postorderAll : List (Option Subtree) → List Subtree
  | [] => []
  | none :: rest => postorderAll rest
  | some s :: rest => s.postorder ++ postorderAll rest
end

mutual
theorem postorder_perm : ∀ s : Subtree, s.postorder.Perm s.preorder
  | .node _ _ _ slots =>
    (List.perm_append_singleton _ _).trans ((postorderAll_perm slots).cons _)
theorem postorderAll_perm : ∀ slots, (postorderAll slots).Perm (preorderAll slots)
  | [] => .nil
  | none :: rest => postorderAll_perm rest
  | some s :: rest => (postorder_perm s).append (postorderAll_perm rest)
end

end Subtree

namespace Tree

variable {t : Tree} {m : Records}

theorem graft_node (t : Tree) (id : NodeId) (kind : Kind) (value : Option Value)
    (slots : List (Option Subtree)) :
    t.graft (.node id kind value slots) =
      (t.graftAll slots).2.push kind value (t.graftAll slots).1 := rfl

theorem graftAll_none (t : Tree) (rest : List (Option Subtree)) :
    t.graftAll (none :: rest) = (none :: (t.graftAll rest).1, (t.graftAll rest).2) := rfl

theorem graftAll_some (t : Tree) (s : Subtree) (rest : List (Option Subtree)) :
    t.graftAll (some s :: rest) = (some (t.graft s).1 :: ((t.graft s).2.graftAll rest).1,
      ((t.graft s).2.graftAll rest).2) := rfl

mutual
/-- Grafting makes as many nodes as the subtree has. -/
theorem size_graft (t : Tree) : ∀ s : Subtree,
    (t.graft s).2.nodes.size = t.nodes.size + s.postorder.length
  | .node id kind value slots => by
    rw [graft_node, size_push, size_graftAll t slots, Subtree.postorder, List.length_append]
    rfl
theorem size_graftAll (t : Tree) : ∀ slots : List (Option Subtree),
    (t.graftAll slots).2.nodes.size = t.nodes.size + (Subtree.postorderAll slots).length
  | [] => rfl
  | none :: rest => size_graftAll t rest
  | some s :: rest => by
    rw [graftAll_some, size_graftAll, size_graft t s, Subtree.postorderAll, List.length_append,
      Nat.add_assoc]
end

mutual
/-- Grafting goes by what a subtree is, not by its numbers. -/
theorem graft_bare (t : Tree) : ∀ s : Subtree, t.graft s.bare = t.graft s
  | .node _ _ _ slots => by rw [Subtree.bare, graft_node, graft_node, graftAll_bareIn t slots]
theorem graftAll_bareIn (t : Tree) : ∀ slots, t.graftAll (Subtree.bareIn slots) = t.graftAll slots
  | [] => rfl
  | none :: rest => by
    rw [Subtree.bareIn, graftAll_none, graftAll_none, graftAll_bareIn t rest]
  | some s :: rest => by
    rw [Subtree.bareIn, graftAll_some, graftAll_some, graft_bare t s, graftAll_bareIn _ rest]
end

mutual
/-- The nodes that grafting adds to a tree are a copy of the subtree, numbered in postorder from the
first number that is free. -/
theorem Stores.graft_copy {t : Tree} {m : Records} : ∀ (s : Subtree), t.Stores m →
    ∃ copy : Subtree, copy.bare = s.bare ∧
      copy.postorder.map Subtree.id = List.range' t.nodes.size s.postorder.length ∧
      (t.graft s).1 = copy.id ∧ (t.graft s).2.Stores (copy.records none + m)
  | .node id kind value slots, h => by
    obtain ⟨copies, hbare, hnumbers, hids, hstores⟩ := Stores.graft_copies slots h
    refine ⟨.node (t.graftAll slots).2.nodes.size kind value copies, ?_, ?_, rfl, ?_⟩
    · rw [Subtree.bare, Subtree.bare, hbare]
    · rw [Subtree.postorder, Subtree.postorder, List.map_append, hnumbers, List.length_append,
        ← List.range'_append_1, size_graftAll]
      rfl
    · rw [graft_node, hids]
      exact hstores.push
theorem Stores.graft_copies {t : Tree} {m : Records} :
    ∀ (slots : List (Option Subtree)), t.Stores m →
    ∃ copies : List (Option Subtree), Subtree.bareIn copies = Subtree.bareIn slots ∧
      (Subtree.postorderAll copies).map Subtree.id =
        List.range' t.nodes.size (Subtree.postorderAll slots).length ∧
      (t.graftAll slots).1 = copies.map (Option.map Subtree.id) ∧
      (t.graftAll slots).2.Stores (Subtree.loose copies + m)
  | [], h => ⟨[], rfl, rfl, rfl, h.congr (zero_add m).symm⟩
  | none :: rest, h => by
    obtain ⟨copies, hbare, hnumbers, hids, hstores⟩ := Stores.graft_copies rest h
    refine ⟨none :: copies, ?_, hnumbers, ?_, hstores⟩
    · rw [Subtree.bareIn, Subtree.bareIn, hbare]
    · rw [graftAll_none, hids]
      rfl
  | some s :: rest, h => by
    obtain ⟨copy, hbare, hnumbers, hid, hcopy⟩ := Stores.graft_copy s h
    obtain ⟨copies, hbares, hrest, hids, hstores⟩ := Stores.graft_copies rest hcopy
    refine ⟨some copy :: copies, ?_, ?_, ?_, ?_⟩
    · rw [Subtree.bareIn, Subtree.bareIn, hbare, hbares]
    · rw [Subtree.postorderAll, Subtree.postorderAll, List.map_append, hnumbers, hrest,
        size_graft, List.length_append, List.range'_append_1]
    · rw [graftAll_some, hid, hids]
      rfl
    · exact hstores.congr (by simp only [Subtree.loose]; abel)
end

/-- The numbers of the nodes that can be reached from the root, each behind its children. -/
def postorder (t : Tree) : List NodeId :=
  (t.subtree t.root).postorder.map Subtree.id

/-- A subtree copied into an empty tree, and made its root. -/
def grafted (s : Subtree) : Tree :=
  { (empty.graft s).2 with root := (empty.graft s).1 }

theorem compact_eq_grafted (t : Tree) : t.compact = grafted (t.subtree t.root) := rfl

theorem planted_eq_grafted (e : Expr) : planted e = grafted e.bare := by
  rw [grafted, graft_eq_plant empty e.full_bare, e.toExpr_bare]
  rfl

theorem grafted_bare (s : Subtree) : grafted s.bare = grafted s := by
  rw [grafted, graft_bare]
  rfl

/-- A copy in an empty tree is all that there is in it, numbered in postorder. -/
theorem exists_holds_grafted (s : Subtree) :
    ∃ copy : Subtree, (grafted s).Holds copy 0 ∧ copy.bare = s.bare ∧
      copy.postorder.map Subtree.id = List.range (grafted s).nodes.size := by
  obtain ⟨copy, hbare, hnumbers, hid, hstores⟩ := stores_empty.graft_copy s
  refine ⟨copy, ⟨⟨hstores.nodup, hstores.node_eq, hstores.mem_keys⟩,
    fun e he => absurd he (Multiset.notMem_zero e), hid⟩, hbare, ?_⟩
  have hsize : (grafted s).nodes.size = s.postorder.length :=
    (size_graft empty s).trans (Nat.zero_add _)
  rw [hnumbers, hsize, List.range_eq_range']
  rfl

end Tree

end FlatSelect
