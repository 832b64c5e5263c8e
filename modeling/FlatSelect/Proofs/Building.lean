import FlatSelect.Proofs.Rise
import FlatSelect.Tree.Build

/-!
# What a new tree represents

A tree that is built from an expression represents a subtree that stands for the expression. A tree
that has been compacted represents a copy of what it represented before. Both number their nodes by
the same recursion, so without vacant slots a copy is the tree that its expression would give.
-/

namespace FlatSelect

namespace Subtree

mutual
/-- Whether no slot is vacant. -/
def full : Subtree → Bool
  | .node _ _ _ slots => fullAll slots
/-- Whether no slot is vacant in or among several. -/
def fullAll : List (Option Subtree) → Bool
  | [] => true
  | none :: _ => false
  | some s :: rest => s.full && fullAll rest
end

end Subtree

namespace Tree

theorem stores_empty : empty.Stores 0 where
  nodup := Multiset.nodup_zero
  node_eq _ h := absurd h (Multiset.notMem_zero _)
  mem_keys id := iff_of_false (Multiset.notMem_zero id) (Nat.not_lt_zero id)

mutual
/-- What planting an expression adds to a tree. -/
theorem Stores.plant {t : Tree} {m : Records} :
    ∀ (e : Expr), t.Stores m → ∃ s : Subtree, s.toExpr = e ∧ s.full = true ∧
      (t.plant e).1 = s.id ∧ (t.plant e).2.Stores (s.records none + m)
  | .node kind value children, h => by
    obtain ⟨slots, hexprs, hfull, hids, hstores⟩ := Stores.plantAll children h
    refine ⟨.node (t.plantAll children).2.nodes.size kind value slots, ?_, hfull, rfl, ?_⟩
    · rw [Subtree.toExpr, hexprs]
    · have hpush : ((t.plantAll children).2.push kind value
          (slots.map (Option.map Subtree.id))).2.Stores _ := hstores.push
      rw [← hids] at hpush
      exact hpush
theorem Stores.plantAll {t : Tree} {m : Records} :
    ∀ (es : List Expr), t.Stores m → ∃ slots : List (Option Subtree),
      Subtree.toExprs slots = es ∧ Subtree.fullAll slots = true ∧
      (t.plantAll es).1 = slots.map (Option.map Subtree.id) ∧
      (t.plantAll es).2.Stores (Subtree.loose slots + m)
  | [], h => ⟨[], rfl, rfl, rfl, h.congr (zero_add m).symm⟩
  | e :: es, h => by
    obtain ⟨s, hexpr, hfull, hid, hs⟩ := Stores.plant e h
    obtain ⟨slots, hexprs, hfulls, hids, hslots⟩ := Stores.plantAll es hs
    refine ⟨some s :: slots, ?_, ?_, ?_, ?_⟩
    · rw [Subtree.toExprs, hexpr, hexprs]
    · rw [Subtree.fullAll, hfull, hfulls]
      rfl
    · have hcons : (t.plantAll (e :: es)).1 =
          some (t.plant e).1 :: ((t.plant e).2.plantAll es).1 := rfl
      rw [hcons, hids, hid]
      rfl
    · exact hslots.congr (by simp only [Subtree.loose]; abel)
end

mutual
@[simp] theorem root_plant (t : Tree) : ∀ e : Expr, (t.plant e).2.root = t.root
  | .node kind value children => by
    rw [← root_plantAll t children]
    exact root_push ..
theorem root_plantAll (t : Tree) : ∀ es : List Expr, (t.plantAll es).2.root = t.root
  | [] => rfl
  | e :: es => (root_plantAll (t.plant e).2 es).trans (root_plant t e)
end

/-- The tree of an expression, whether or not the expression makes sense. -/
def planted (e : Expr) : Tree :=
  { (empty.plant e).2 with root := (empty.plant e).1 }

theorem ofExpr_eq_ok {e : Expr} {t : Tree} :
    ofExpr e = .ok t ↔ e.check = .ok () ∧ t = planted e := by
  rw [ofExpr]
  cases e.check with
  | error => simp
  | ok => simp [planted, eq_comm]

/-- A tree in which only an expression is planted holds it, with no slot vacant, and nothing
else. -/
theorem exists_holds_planted (e : Expr) :
    ∃ s : Subtree, (planted e).Holds s 0 ∧ s.toExpr = e ∧ s.full = true := by
  obtain ⟨s, hexpr, hfull, hid, hstores⟩ := Stores.plant e stores_empty
  exact ⟨s, ⟨⟨hstores.nodup, hstores.node_eq, hstores.mem_keys⟩,
    fun e he => absurd he (Multiset.notMem_zero e), hid⟩, hexpr, hfull⟩

theorem holds_of_ofExpr {e : Expr} {t : Tree} (h : ofExpr e = .ok t) :
    ∃ s : Subtree, t.Holds s 0 ∧ s.toExpr = e ∧ s.full = true := by
  obtain ⟨_, rfl⟩ := ofExpr_eq_ok.mp h
  exact exists_holds_planted e

/-- A tree of an expression represents it, with no slot vacant. -/
theorem represents_of_ofExpr {e : Expr} {t : Tree} (h : ofExpr e = .ok t) :
    ∃ s : Subtree, t.Represents s ∧ s.toExpr = e ∧ s.full = true := by
  obtain ⟨s, hholds, hexpr, hfull⟩ := holds_of_ofExpr h
  exact ⟨s, hholds.represents, hexpr, hfull⟩

mutual
theorem graft_eq_plant (t : Tree) :
    ∀ {s : Subtree}, s.full = true → t.graft s = t.plant s.toExpr
  | .node id kind value slots, h => by
    rw [graft, Subtree.toExpr, plant, @graftAll_eq_plantAll t slots h]
theorem graftAll_eq_plantAll (t : Tree) :
    ∀ {slots : List (Option Subtree)}, Subtree.fullAll slots = true →
      t.graftAll slots = t.plantAll (Subtree.toExprs slots)
  | [], _ => rfl
  | none :: rest, h => absurd h (by simp [Subtree.fullAll])
  | some s :: rest, h => by
    rw [Subtree.fullAll, Bool.and_eq_true] at h
    rw [graftAll, Subtree.toExprs, plantAll, graft_eq_plant t h.1]
    simp only [graftAll_eq_plantAll _ h.2]
end

/-- Compacting a tree without vacant slots plants its expression anew. -/
theorem Represents.compact_eq {t : Tree} {s : Subtree} (h : t.Represents s)
    (hfull : s.full = true) : t.compact = planted s.toExpr := by
  rw [compact, h.subtree_eq, graft_eq_plant empty hfull]
  rfl

theorem Represents.ofExpr_toExpr {t : Tree} {s : Subtree} (h : t.Represents s)
    (hfull : s.full = true) (hcheck : s.toExpr.check = .ok ()) :
    ofExpr s.toExpr = .ok t.compact :=
  ofExpr_eq_ok.mpr ⟨hcheck, h.compact_eq hfull⟩

end Tree

end FlatSelect
