import FlatSelect.Proofs.Rise
import Mathlib.Data.Prod.Lex

/-!
# What a lift uses up

Neither the depth of a tree nor the number of its deviations has to fall when a node is lifted: all
that the node crosses goes one level down, with whatever hangs beside it. What does fall is a list
of counts. An absorption uses up a node that can be lifted. Any other lift turns round pairs of a
node that could be crossed and a node of the lifted kind below it.

The kinds that can be lifted have an order in which no kind crosses a later one, from conditions
over projections and derived columns to renames. A lift can make new pairs for later kinds only, so
the counts in this order, with the number of nodes in front, fall in the sense of the dictionary
(`Subtree.weight_lt_of_lift`). No grammar has a part in this.
-/

namespace FlatSelect

namespace Transfer

/-- Whether nodes of one kind can be lifted past nodes of another. -/
def crosses (node parent : Kind) : Bool :=
  node ≠ parent && (between? node parent).isSome

end Transfer

namespace Subtree

mutual
/-- The number of nodes of the kinds that are `marked`. -/
def count (marked : Kind → Bool) : Subtree → Nat
  | .node _ kind _ slots => (if marked kind then 1 else 0) + countIn marked slots
/-- The number of such nodes in several slots. -/
def countIn (marked : Kind → Bool) : List (Option Subtree) → Nat
  | [] => 0
  | none :: rest => countIn marked rest
  | some s :: rest => s.count marked + countIn marked rest
end

mutual
/-- The number of pairs of a node of an `upper` kind and a node of a `lower` kind below it. -/
def pairs (upper lower : Kind → Bool) : Subtree → Nat
  | .node _ kind _ slots =>
    (if upper kind then countIn lower slots else 0) + pairsIn upper lower slots
/-- The number of such pairs in several slots. -/
def pairsIn (upper lower : Kind → Bool) : List (Option Subtree) → Nat
  | [] => 0
  | none :: rest => pairsIn upper lower rest
  | some s :: rest => s.pairs upper lower + pairsIn upper lower rest
end

/-- The number of pairs of a node of a kind and a node above it that it can be lifted past. -/
def inversions (kind : Kind) (s : Subtree) : Nat :=
  s.pairs (Transfer.crosses kind) (· = kind)

/-- What a lift makes smaller. -/
def weight (s : Subtree) : ℕ ×ₗ ℕ ×ₗ ℕ ×ₗ ℕ ×ₗ ℕ :=
  toLex (s.count Kind.hasOperand, toLex (s.inversions .condition, toLex (s.inversions .projection,
    toLex (s.inversions .extraColumn, s.inversions .rename))))

variable {marked upper lower : Kind → Bool}

@[simp] theorem countIn_append (left right : List (Option Subtree)) :
    countIn marked (left ++ right) = countIn marked left + countIn marked right := by
  induction left with
  | nil => simp [countIn]
  | cons head rest ih => cases head <;> simp [countIn, ih, Nat.add_assoc]

@[simp] theorem pairsIn_append (left right : List (Option Subtree)) :
    pairsIn upper lower (left ++ right) = pairsIn upper lower left + pairsIn upper lower right := by
  induction left with
  | nil => simp [pairsIn]
  | cons head rest ih => cases head <;> simp [pairsIn, ih, Nat.add_assoc]

theorem count_le_countIn (marked : Kind → Bool) {s : Subtree} {slots : List (Option Subtree)}
    (h : some s ∈ slots) : s.count marked ≤ countIn marked slots := by
  obtain ⟨left, right, rfl⟩ := List.append_of_mem h
  simp only [countIn_append, countIn]
  omega

end Subtree

namespace Frame

/-- The number of nodes of the `marked` kinds beside the open slot. -/
def count (marked : Kind → Bool) (f : Frame) : Nat :=
  Subtree.countIn marked f.before + Subtree.countIn marked f.after

/-- The number of pairs beside the open slot. -/
def pairs (upper lower : Kind → Bool) (f : Frame) : Nat :=
  Subtree.pairsIn upper lower f.before + Subtree.pairsIn upper lower f.after

variable {marked upper lower : Kind → Bool} (f : Frame) (s : Subtree)

theorem count_fill_none :
    (f.fill none).count marked = (if marked f.kind then 1 else 0) + f.count marked := by
  simp only [fill, Subtree.count, Subtree.countIn_append, Subtree.countIn, count]

theorem count_fill : (f.fill (some s)).count marked =
    (if marked f.kind then 1 else 0) + f.count marked + s.count marked := by
  simp only [fill, Subtree.count, Subtree.countIn_append, Subtree.countIn, count]
  omega

theorem pairs_fill : (f.fill (some s)).pairs upper lower =
    (if upper f.kind then f.count lower + s.count lower else 0) + f.pairs upper lower +
      s.pairs upper lower := by
  simp only [fill, Subtree.pairs, Subtree.countIn_append, Subtree.countIn, Subtree.pairsIn_append,
    Subtree.pairsIn, count, pairs]
  split <;> omega

/-- A node that goes up past a frame takes what hangs beside its operand along. -/
theorem pairs_swap {d : Frame} (h : upper d.kind = false) :
    (d.fill (some (f.fill (some s)))).pairs upper lower +
        (if upper f.kind then (d.fill none).count lower else 0) =
      (f.fill (some (d.fill (some s)))).pairs upper lower := by
  simp only [pairs_fill, count_fill, count_fill_none, h, Bool.false_eq_true, if_false]
  split <;> omega

end Frame

namespace Subtree

mutual
theorem count_blank (marked : Kind → Bool) : ∀ s : Subtree, s.blank.count marked = s.count marked
  | .node _ _ _ slots => by rw [blank, count, count, countIn_blankIn marked slots]
theorem countIn_blankIn (marked : Kind → Bool) :
    ∀ slots, countIn marked (blankIn slots) = countIn marked slots
  | [] => rfl
  | none :: rest => countIn_blankIn marked rest
  | some s :: rest => by
    rw [blankIn, countIn, countIn, count_blank marked s, countIn_blankIn marked rest]
end

mutual
theorem pairs_blank (upper lower : Kind → Bool) :
    ∀ s : Subtree, s.blank.pairs upper lower = s.pairs upper lower
  | .node _ _ _ slots => by
    rw [blank, pairs, pairs, countIn_blankIn lower slots, pairsIn_blankIn upper lower slots]
theorem pairsIn_blankIn (upper lower : Kind → Bool) :
    ∀ slots, pairsIn upper lower (blankIn slots) = pairsIn upper lower slots
  | [] => rfl
  | none :: rest => pairsIn_blankIn upper lower rest
  | some s :: rest => by
    rw [blankIn, pairsIn, pairsIn, pairs_blank upper lower s, pairsIn_blankIn upper lower rest]
end

theorem count_eq_of_blank_eq {s s' : Subtree} (h : s'.blank = s.blank) (marked : Kind → Bool) :
    s'.count marked = s.count marked := by
  rw [← count_blank, h, count_blank]

theorem pairs_eq_of_blank_eq {s s' : Subtree} (h : s'.blank = s.blank)
    (upper lower : Kind → Bool) : s'.pairs upper lower = s.pairs upper lower := by
  rw [← pairs_blank, h, pairs_blank]

theorem count_path (marked : Kind → Bool) (path : Path) (s s' : Subtree) :
    (path.fill s').count marked + s.count marked =
      (path.fill s).count marked + s'.count marked := by
  induction path generalizing s s' with
  | nil => exact Nat.add_comm _ _
  | cons f above ih =>
      have habove := ih (f.fill (some s)) (f.fill (some s'))
      simp only [Frame.count_fill] at habove
      simp only [Path.fill_cons]
      omega

theorem pairs_path (upper : Kind → Bool) {s s' : Subtree} (path : Path)
    (h : s'.count lower = s.count lower) :
    (path.fill s').pairs upper lower + s.pairs upper lower =
      (path.fill s).pairs upper lower + s'.pairs upper lower := by
  induction path generalizing s s' with
  | nil => exact Nat.add_comm _ _
  | cons f above ih =>
      have hcount : (f.fill (some s')).count lower = (f.fill (some s)).count lower := by
        rw [Frame.count_fill, Frame.count_fill, h]
      have habove := ih hcount
      simp only [Frame.pairs_fill, h] at habove
      simp only [Path.fill_cons]
      omega

/-! ### Lifts -/

variable {g : Grammar} {fresh : NodeId} {node below : Subtree} {path : Path} {steps n : Nat}
  {place : Place} {whole : Subtree}

/-- The whole before a node leaves the foot of a path. -/
def hung (node below : Subtree) (path : Path) : Subtree :=
  path.fill (node.setChild 1 (some below))

/-- A node that rises past a parent changes places with it, and of what hangs where nothing else
changes. -/
theorem blank_hung_rises {d f : Frame} {node' parent' : Subtree} (hd : d.slot = 1)
    (hnode : (d.fill none).Reworded node') (hparent : (f.fill (some below)).Reworded parent')
    (above : Path) : (hung node' parent' above).blank =
      (above.fill (d.fill (some (f.fill (some below))))).blank := by
  refine above.fill_blank_congr ?_
  rw [setChild_blank, hnode.blank_eq, Option.map_some, hparent.blank_eq, ← Option.map_some,
    ← setChild_blank, ← hd, setChild_fill]

theorem hung_fill_none {d : Frame} (hd : d.slot = 1) (below : Subtree) (path : Path) :
    hung (d.fill none) below path = path.fill (d.fill (some below)) := by
  rw [hung, ← hd, setChild_fill]

/-- A node that rises past a parent: nothing is lost, and no pair is new but for nodes that can be
lifted past the one that rises. -/
theorem hung_rises {f : Frame} {above : Path} {node' parent' : Subtree}
    (hopen : node.slots[1]? = some none) (hnode : node.Reworded node')
    (hparent : (f.fill (some below)).Reworded parent') :
    (∀ marked, (hung node' parent' above).count marked =
      (hung node below (f :: above)).count marked) ∧
    ∀ upper lower : Kind → Bool, upper node.kind = false →
      (hung node' parent' above).pairs upper lower +
        (if upper f.kind ∧ lower node.kind then 1 else 0) ≤
          (hung node below (f :: above)).pairs upper lower := by
  obtain ⟨d, rfl, hd⟩ := exists_frame_of_slot hopen
  have hblank := blank_hung_rises hd hnode hparent above
  have hcount : ∀ marked, (d.fill (some (f.fill (some below)))).count marked =
      (f.fill (some (d.fill (some below)))).count marked := by
    intro marked
    simp only [Frame.count_fill]
    omega
  rw [hung_fill_none hd, Path.fill_cons]
  constructor
  · intro marked
    have hpath := count_path marked above (f.fill (some (d.fill (some below))))
      (d.fill (some (f.fill (some below))))
    rw [hcount] at hpath
    rw [count_eq_of_blank_eq hblank]
    omega
  · intro upper lower hupper
    have hswap := @Frame.pairs_swap upper lower f below d hupper
    have hpath := pairs_path upper above (hcount lower)
    have hnode : (if lower d.kind then 1 else 0) ≤ (d.fill none).count lower := by
      rw [Frame.count_fill_none]
      omega
    rw [pairs_eq_of_blank_eq hblank, Frame.fill_kind]
    cases hf : upper f.kind <;>
      simp only [hf, if_true, true_and, Bool.false_eq_true, if_false, false_and] at hswap ⊢ <;>
      omega

/-- Of two nodes of one kind, the parent takes the other in or there is no rule. -/
theorem crosses_of_rises {rule : Transfer} {f : Frame} {node' parent' : Subtree}
    (hrule : Transfer.between? node.kind f.kind = some rule)
    (h : rule.Comes fresh node (f.fill (some below)) (.rises node' parent')) :
    Transfer.crosses node.kind f.kind = true := by
  have hself : ∀ kind, Transfer.between? kind kind = none ∨
      Transfer.between? kind kind = some .mergeProjections ∨
      Transfer.between? kind kind = some .conjoinConditions := by
    intro kind
    cases kind <;> decide
  cases h with
  | rises _ _ hmerge hconjoin =>
      have hne : node.kind ≠ f.kind := by
        intro heq
        rw [heq] at hrule
        rcases hself f.kind with h | h | h <;> rw [hrule] at h <;> cases h
        · exact hmerge rfl
        · exact hconjoin rfl
      simp [Transfer.crosses, hne, hrule]

/-- A node that lands has turned round a pair for every parent that it crossed. -/
theorem Rises.relocated (hopen : node.slots[1]? = some none)
    (h : Rises g fresh node below steps path (.relocated place n) whole) :
    steps ≤ n ∧
    (∀ marked, whole.count marked = (hung node below path).count marked) ∧
    ∀ kind, Transfer.crosses kind node.kind = false →
      whole.inversions kind + (if kind = node.kind then n - steps else 0) ≤
        (hung node below path).inversions kind := by
  generalize houtcome : Lift.Outcome.relocated place n = outcome at h
  induction h with
  | lands hallows =>
      cases houtcome
      exact ⟨Nat.le_refl _, fun _ => rfl, fun _ _ => by simp [hung]⟩
  | absorbed => cases houtcome
  | @crosses node below node' parent' whole steps f above rule outcome _ hrule hcross _ ih =>
      have hcomes := Transfer.comes_of_cross hcross
      have hcrosses := crosses_of_rises hrule hcomes
      cases hcomes with
      | rises hnode hparent _ _ =>
          obtain ⟨hsteps, hcount, hpairs⟩ := ih ((hnode.slot_eq (by decide)).trans hopen) houtcome
          obtain ⟨hcount', hpairs'⟩ := hung_rises hopen hnode hparent
          refine ⟨by omega, fun marked => (hcount marked).trans (hcount' marked), ?_⟩
          intro kind hkind
          have hbelow := hpairs kind (by rwa [hnode.kind_eq])
          have habove := hpairs' (Transfer.crosses kind) (· = kind) hkind
          rw [hnode.kind_eq] at hbelow
          simp only [inversions] at hbelow ⊢
          by_cases heq : kind = node.kind
          · subst heq
            simp only [hcrosses, decide_true, and_true, if_true] at habove hbelow ⊢
            omega
          · simp only [heq, if_false] at hbelow ⊢
            omega

theorem Rises.ends {outcome : Lift.Outcome}
    (h : Rises g fresh node below steps path outcome whole) :
    outcome ≠ .alreadyLegal := by
  induction h with
  | lands | absorbed => simp
  | crosses _ _ _ _ ih => exact ih

/-- A node that is forbidden where it stands crosses at least one parent before it lands. -/
theorem Rises.one_le_of_forbidden {f : Frame} {above : Path} (hopen : node.slots[1]? = some none)
    (hforbidden : g.allows f.kind f.slot node.kind = false)
    (h : Rises g fresh node below steps (f :: above) (.relocated place n) whole) :
    steps + 1 ≤ n := by
  cases h with
  | lands hallows => rw [hforbidden] at hallows; exact absurd hallows (by decide)
  | crosses _ _ hcross hrest =>
      cases Transfer.comes_of_cross hcross with
      | rises hnode _ _ _ => exact (hrest.relocated ((hnode.slot_eq (by decide)).trans hopen)).1

theorem count_setChild_none {hole : Option Subtree} (hopen : node.slots[1]? = some none) :
    (node.setChild 1 hole).count marked = node.count marked + countIn marked [hole] := by
  obtain ⟨d, rfl, hd⟩ := exists_frame_of_slot hopen
  rw [← hd, setChild_fill, Frame.count_fill_none]
  cases hole with
  | none => rw [Frame.count_fill_none]; rfl
  | some c => rw [Frame.count_fill]; rfl

theorem count_setChild_some (marked : Kind → Bool) {s c : Subtree} {slot : Nat}
    (hc : s.child slot = some c) (c' : Subtree) :
    (s.setChild slot (some c')).count marked + c.count marked =
      s.count marked + c'.count marked := by
  obtain ⟨f, rfl, rfl⟩ := exists_frame hc
  rw [setChild_fill, Frame.count_fill, Frame.count_fill]
  omega

/-- An absorbing parent has fewer nodes that can be lifted than it had with the node above it. -/
theorem count_absorbed {rule : Transfer} {f : Frame} {parent' : Subtree}
    (hopen : node.slots[1]? = some none) (hkind : node.kind.hasOperand = true)
    (h : rule.Comes fresh node (f.fill (some below)) (.absorbed parent')) :
    parent'.count Kind.hasOperand <
      (f.fill (some (node.setChild 1 (some below)))).count Kind.hasOperand := by
  have hnode : 1 ≤ node.count Kind.hasOperand := by
    obtain ⟨id, kind, value, slots⟩ := node
    simp only [count, if_pos (show kind.hasOperand = true from hkind)]
    omega
  have hparent : (f.fill (some (node.setChild 1 (some below)))).count Kind.hasOperand =
      (f.fill (some below)).count Kind.hasOperand + node.count Kind.hasOperand := by
    simp only [Frame.count_fill, count_setChild_none hopen, countIn]
    omega
  cases h with
  | absorbed hreworded _ =>
      rw [count_eq_of_blank_eq hreworded.blank_eq]
      omega
  | @conjoined outer inner houter hinner =>
      have hinner' : 1 + inner.count Kind.hasOperand ≤ node.count Kind.hasOperand := by
        obtain ⟨id, kind, value, slots⟩ := node
        simp only [count, if_pos (show kind.hasOperand = true from hkind)]
        have hmem : some inner ∈ slots := List.mem_of_getElem? (Option.join_eq_some_iff.mp hinner)
        have hle := count_le_countIn Kind.hasOperand hmem
        omega
      have hboth : (Subtree.node fresh .and none [some outer, some inner]).count Kind.hasOperand =
          outer.count Kind.hasOperand + inner.count Kind.hasOperand := by
        simp [count, countIn, Kind.hasOperand]
      have hset := count_setChild_some Kind.hasOperand houter
        (.node fresh .and none [some outer, some inner])
      omega

/-- An absorbed node is gone, and nothing that could be lifted has come. -/
theorem Rises.absorbs (hopen : node.slots[1]? = some none) (hkind : node.kind.hasOperand = true)
    (h : Rises g fresh node below steps path (.absorbed n) whole) :
    whole.count Kind.hasOperand < (hung node below path).count Kind.hasOperand := by
  generalize houtcome : Lift.Outcome.absorbed n = outcome at h
  induction h with
  | lands => cases houtcome
  | crosses _ hrule hcross _ ih =>
      cases Transfer.comes_of_cross hcross with
      | rises hnode hparent _ _ =>
          rw [← (hung_rises hopen hnode hparent).1]
          exact ih ((hnode.slot_eq (by decide)).trans hopen) (by rwa [hnode.kind_eq]) houtcome
  | @absorbed node below parent' steps f above rule _ hrule hcross =>
      have hcount := count_absorbed hopen hkind (Transfer.comes_of_cross hcross)
      have hpath := count_path Kind.hasOperand above parent'
        (f.fill (some (node.setChild 1 (some below))))
      rw [hung, Path.fill_cons]
      omega

/-- Counts before and after a lift that ends at a place, by kinds. -/
theorem weight_lt_of_relocated {s : Subtree} {kind : Kind} (hkind : kind.hasOperand = true)
    (hcount : whole.count Kind.hasOperand = s.count Kind.hasOperand)
    (hpairs : ∀ other, Transfer.crosses other kind = false →
      whole.inversions other + (if other = kind then 1 else 0) ≤ s.inversions other) :
    whole.weight < s.weight := by
  have hlt : whole.inversions kind < s.inversions kind := by
    have h := hpairs kind (by simp [Transfer.crosses])
    rwa [if_pos rfl] at h
  have hle : ∀ other, Transfer.crosses other kind = false →
      whole.inversions other ≤ s.inversions other :=
    fun other h => Nat.le_trans (Nat.le_add_right _ _) (hpairs other h)
  simp only [weight, Prod.Lex.toLex_lt_toLex, hcount, true_and]
  cases kind <;> simp only [Kind.hasOperand, Bool.false_eq_true] at hkind
  case condition => omega
  case projection =>
    have := hle .condition (by decide)
    omega
  case extraColumn =>
    have := hle .condition (by decide)
    have := hle .projection (by decide)
    omega
  case rename =>
    have := hle .condition (by decide)
    have := hle .projection (by decide)
    have := hle .extraColumn (by decide)
    omega

/-- A node that is forbidden where it stands leaves its slot to its operand and is carried up. -/
theorem exists_rises_of_lift {f : Frame} {above : Path} {outcome : Lift.Outcome}
    (hforbidden : g.allows f.kind f.slot node.kind = false)
    (h : node.lift g fresh (f :: above) = .ok (outcome, whole)) :
    ∃ (d : Frame) (operand : Subtree), d.fill (some operand) = node ∧ d.slot = 1 ∧
      d.kind.hasOperand = true ∧
      Rises g fresh (d.fill none) operand 0 (f :: above) outcome whole := by
  rw [lift, hforbidden, if_neg (by decide)] at h
  cases hkind : node.kind.hasOperand with
  | false => simp [hkind] at h
  | true =>
      cases hoperand : node.child 1 with
      | none => simp [hkind, hoperand] at h
      | some operand =>
          simp only [hkind, hoperand, if_true] at h
          obtain ⟨d, rfl, hd⟩ := exists_frame hoperand
          rw [← hd, setChild_fill] at h
          exact ⟨d, operand, rfl, hd, hkind, rises_of_rise h⟩

theorem open_fill_none {d : Frame} (hd : d.slot = 1) : (d.fill none).slots[1]? = some none := by
  rw [← hd, Frame.fill_slots, Frame.slot, List.getElem?_append_right (Nat.le_refl _), Nat.sub_self]
  rfl

/-- Every lift of a node that is forbidden where it stands makes the weight of the whole smaller. -/
theorem weight_lt_of_lift {f : Frame} {above : Path} {outcome : Lift.Outcome}
    (hforbidden : g.allows f.kind f.slot node.kind = false)
    (h : node.lift g fresh (f :: above) = .ok (outcome, whole)) :
    whole.weight < (Path.fill (f :: above) node).weight := by
  obtain ⟨d, operand, rfl, hd, hkind, hrises⟩ := exists_rises_of_lift hforbidden h
  have hopen := open_fill_none hd
  rw [← hung_fill_none hd]
  cases outcome with
  | alreadyLegal => exact absurd rfl hrises.ends
  | absorbed n =>
      have hlt := hrises.absorbs hopen hkind
      simp only [weight, Prod.Lex.toLex_lt_toLex]
      exact .inl hlt
  | relocated place n =>
      -- A node that is forbidden in its slot crosses at least one parent, so its own kind has one
      -- pair less. Kinds before it have no new pairs.
      obtain ⟨_, hcount, hpairs⟩ := hrises.relocated hopen
      have hn : 1 ≤ n := hrises.one_le_of_forbidden hopen hforbidden
      apply weight_lt_of_relocated hkind (hcount _)
      intro other hother
      have h := hpairs other hother
      by_cases heq : other = d.kind <;> simp only [Frame.fill_kind, heq] at h ⊢ <;> grind

/-- A node that is legal stays where it is. -/
theorem lift_alreadyLegal (h : node.lift g fresh path = .ok (.alreadyLegal, whole)) :
    whole = path.fill node := by
  cases path with
  | nil => cases h
  | cons f above =>
      rw [lift] at h
      split at h
      · cases h
        rfl
      · split at h
        · split at h
          · cases h
          · exact absurd rfl (rises_of_rise h).ends
        · cases h

end Subtree

end FlatSelect
