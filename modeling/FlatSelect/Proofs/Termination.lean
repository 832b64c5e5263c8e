import FlatSelect.Normalization
import FlatSelect.Proofs.Building
import FlatSelect.Proofs.Descent
import FlatSelect.Proofs.Deviation
import Mathlib.Order.WellFounded

/-!
# Lifting ends

However deviations are chosen, they cannot be lifted forever, whatever the grammar. So lifting first
deviations ends without a budget, in a tree without deviations or in an error, after a number of
lifts that depends on the tree alone. A normalization does these lifts as far as its budget goes:
it ends as the unbounded run ends if the budget is large enough, and is cut off otherwise.
-/

namespace FlatSelect

namespace Grammar

/-- Some node that can be reached, and that is forbidden in its slot, has been lifted. -/
inductive Lifts (g : Grammar) (t t' : Tree) : Prop
  | intro {node : NodeId} {place : Place} {outcome : Lift.Outcome} (hreach : node ∈ t.preorder)
    (hplace : t.place node = some place)
    (hforbidden : g.allows (t.kind place.parent) place.slot (t.kind node) = false)
    (hlift : Edit.lift g node t = .ok outcome t')

end Grammar

/-- What comes of a node that was lifted from the foot of a path. -/
theorem Tree.Holds.of_lift {g : Grammar} {t t' : Tree} {s : Subtree} {path : Path}
    {graves : Records} {outcome : Lift.Outcome} (h : t.Holds (path.fill s) graves)
    (hlift : Edit.lift g s.id t = .ok outcome t') :
    ∃ whole gone, s.lift g t.nodes.size path = .ok (outcome, whole) ∧
      (s.setChild 1 none).Leaves outcome gone ∧ t'.Holds whole (gone + graves) := by
  have hsim := h.lift (g := g)
  cases hs : s.lift g t.nodes.size path with
  | error cause =>
      rw [hs, hlift] at hsim
      cases hsim
  | ok result =>
      rw [hs, hlift] at hsim
      obtain ⟨_, gone, heq, hleaves, hholds⟩ := hsim
      cases heq
      exact ⟨_, gone, rfl, hleaves, hholds⟩

namespace Tree.Represents

variable {g : Grammar} {t t' : Tree} {s : Subtree}

theorem of_lift {path : Path} {outcome : Lift.Outcome} (h : t.Represents (path.fill s))
    (hlift : Edit.lift g s.id t = .ok outcome t') :
    ∃ whole, s.lift g t.nodes.size path = .ok (outcome, whole) ∧ t'.Represents whole := by
  obtain ⟨_, hholds⟩ := h
  obtain ⟨whole, _, hwhole, _, hholds'⟩ := hholds.of_lift hlift
  exact ⟨whole, hwhole, hholds'.represents⟩

/-- A lift of a forbidden node makes what a tree represents lighter. -/
theorem of_lifts (h : t.Represents s) (hlifts : g.Lifts t t') :
    ∃ s', t'.Represents s' ∧ s'.weight < s.weight := by
  obtain ⟨hreach, hplace, hforbidden, hlift⟩ := hlifts
  rw [Tree.preorder, h.subtree_eq] at hreach
  obtain ⟨path, below, rfl, rfl⟩ := Subtree.exists_path_of_mem hreach
  rw [h.place_foot] at hplace
  cases path with
  | nil => cases hplace
  | cons f above =>
      cases hplace
      rw [h.kind_foot, Frame.place, h.kind_parent] at hforbidden
      obtain ⟨whole, hwhole, hrep⟩ := h.of_lift hlift
      exact ⟨whole, hrep, Subtree.weight_lt_of_lift hforbidden hwhole⟩

/-- The first deviation can only be lifted as a node that is forbidden in its slot. -/
theorem lifts_of_deviation {roots : KindSet} {node : NodeId} {outcome : Lift.Outcome}
    (h : t.Represents s) (hdeviation : t.deviation? g roots = some node)
    (hlift : Edit.lift g node t = .ok outcome t') : g.Lifts t t' ∧ outcome ≠ .alreadyLegal := by
  rw [Tree.deviation?, h.subtree_eq] at hdeviation
  obtain ⟨path, s, rfl, rfl, _, htakes⟩ := Subtree.exists_path_of_deviation hdeviation
  obtain ⟨whole, hwhole, _⟩ := h.of_lift hlift
  cases path with
  | nil => cases hwhole
  | cons f above =>
      have hparent : t.kind f.place.parent = f.kind := h.kind_parent
      have hkind : t.kind s.id = s.kind := h.kind_foot
      refine ⟨⟨?_, h.place_foot, ?_, hlift⟩, ?_⟩
      · rw [Tree.preorder, h.subtree_eq]
        exact Path.mem_ids_fill _ s.id_mem_ids
      · rw [hparent, hkind]
        exact htakes
      · rintro rfl
        have hlt := Subtree.weight_lt_of_lift htakes hwhole
        rw [Subtree.lift_alreadyLegal hwhole] at hlt
        exact lt_irrefl _ hlt

/-- Lifting forbidden nodes of a tree ends. -/
theorem acc_lifts (h : t.Represents s) : Acc (fun t' t => g.Lifts t t') t := by
  induction hs : s.weight using WellFoundedLT.induction generalizing t s with
  | ind weight ih =>
      subst hs
      apply Acc.intro t
      intro t' hlifts
      obtain ⟨s', hrep, hlt⟩ := h.of_lifts hlifts
      exact ih s'.weight hlt hrep rfl

end Tree.Represents

namespace Edit

/-- How lifting first deviations ends. -/
inductive Ending where
  /-- No deviation is left. -/
  | canonical (last : Tree)
  /-- A deviation cannot be lifted. -/
  | stuck (cause : Error)

/-- Lifting first deviations without a budget: the outcomes of the lifts, and how they end. -/
inductive Settles (g : Grammar) (roots : KindSet) : Tree → List Lift.Outcome → Ending → Prop
  | canonical {t : Tree} (hdeviation : t.deviation? g roots = none) :
    Settles g roots t [] (.canonical t)
  | stuck {t left : Tree} {node : NodeId} {cause : Error}
    (hdeviation : t.deviation? g roots = some node)
    (hlift : lift g node t = .error cause left) : Settles g roots t [] (.stuck cause)
  | lift {t t' : Tree} {node : NodeId} {outcome : Lift.Outcome} {outcomes : List Lift.Outcome}
    {ending : Ending} (hdeviation : t.deviation? g roots = some node)
    (hlift : lift g node t = .ok outcome t') (hrest : Settles g roots t' outcomes ending) :
    Settles g roots t (outcome :: outcomes) ending

variable {g : Grammar} {roots : KindSet} {t : Tree} {outcomes : List Lift.Outcome}
  {ending : Ending}

/-- There is one way of lifting first deviations. -/
theorem Settles.unique {outcomes' : List Lift.Outcome} {ending' : Ending}
    (h : Settles g roots t outcomes ending) (h' : Settles g roots t outcomes' ending') :
    outcomes' = outcomes ∧ ending' = ending := by
  induction h generalizing outcomes' with
  | canonical hdeviation =>
      cases h' <;> simp_all
  | stuck hdeviation hlift =>
      cases h' <;> simp_all
  | lift hdeviation hlift _ ih =>
      cases h' with
      | canonical hdeviation' => simp_all
      | stuck hdeviation' hlift' => simp_all
      | lift hdeviation' hlift' hrest' =>
          rw [hdeviation] at hdeviation'
          cases hdeviation'
          rw [hlift] at hlift'
          cases hlift'
          obtain ⟨rfl, rfl⟩ := ih hrest'
          exact ⟨rfl, rfl⟩

theorem Settles.deviation?_eq_none {last : Tree}
    (h : Settles g roots t outcomes (.canonical last)) : last.deviation? g roots = none := by
  generalize hending : Ending.canonical last = ending at h
  induction h with
  | canonical hdeviation =>
      cases hending
      exact hdeviation
  | stuck => cases hending
  | lift _ _ _ ih => exact ih hending

/-- What every lift of a first deviation keeps is kept until there is none left. -/
theorem Settles.keeps (kept : Tree → Prop) {last : Tree}
    (step : ∀ {t t' : Tree} {node : NodeId} {outcome : Lift.Outcome}, kept t →
      t.deviation? g roots = some node → Edit.lift g node t = .ok outcome t' → kept t')
    (h : Settles g roots t outcomes (.canonical last)) (ht : kept t) : kept last := by
  generalize hending : Ending.canonical last = ending at h
  induction h with
  | canonical =>
      cases hending
      exact ht
  | stuck => cases hending
  | lift hdeviation hlift _ ih => exact ih (step ht hdeviation hlift) hending

theorem exists_settles (g : Grammar) (roots : KindSet) {s : Subtree} (h : t.Represents s) :
    ∃ outcomes ending, Settles g roots t outcomes ending := by
  induction h.acc_lifts (g := g) generalizing s with
  | intro t _ ih =>
      cases hdeviation : t.deviation? g roots with
      | none => exact ⟨[], _, .canonical hdeviation⟩
      | some node =>
          cases hlift : lift g node t with
          | error cause left => exact ⟨[], _, .stuck hdeviation hlift⟩
          | ok outcome t' =>
              obtain ⟨hlifts, _⟩ := h.lifts_of_deviation hdeviation hlift
              obtain ⟨s', hrep, _⟩ := h.of_lifts hlifts
              obtain ⟨outcomes, ending, hrest⟩ := ih t' hlifts hrep
              exact ⟨outcome :: outcomes, ending, .lift hdeviation hlift hrest⟩

theorem liftAll_zero (tally : Tally) : liftAll g roots 0 tally t =
    match t.deviation? g roots with
    | none => .ok tally t
    | some _ => .error (.nonCanonicalizable (.budgetSpent tally.lifts)) t := by
  rw [liftAll, get_bind]
  cases t.deviation? g roots <;> rfl

theorem liftAll_succ (budget : Nat) (tally : Tally) : liftAll g roots (budget + 1) tally t =
    match t.deviation? g roots with
    | none => .ok tally t
    | some node =>
      match lift g node t with
      | .ok .alreadyLegal t' => .error (.internal (.deviationLegal (t.kind node))) t'
      | .ok outcome t' => liftAll g roots budget (tally.count outcome) t'
      | .error cause left => .error cause left := by
  rw [liftAll, get_bind]
  cases t.deviation? g roots with
  | none => rfl
  | some node =>
      dsimp only
      rw [get_bind, bind_apply]
      cases lift g node t with
      | error => rfl
      | ok outcome t' => cases outcome <;> rfl

theorem normalize_eq (budget : Nat) : normalize g roots budget t =
    match (liftAll g roots budget .zero).result t with
    | .ok (tally, last) => .ok tally last.compact
    | .error cause => .error cause t := by
  rw [normalize, atomically, result, bind_apply]
  cases liftAll g roots budget .zero t <;> rfl

@[simp] theorem lifts_count (tally : Tally) (outcome : Lift.Outcome) :
    (tally.count outcome).lifts = tally.lifts + 1 := by
  cases outcome <;> rfl

theorem lifts_foldl_count (outcomes : List Lift.Outcome) (tally : Tally) :
    (outcomes.foldl Tally.count tally).lifts = tally.lifts + outcomes.length := by
  induction outcomes generalizing tally with
  | nil => rfl
  | cons outcome rest ih =>
      rw [List.foldl_cons, ih, lifts_count, List.length_cons]
      omega

/-- How lifting with a budget ends, in terms of how it would end without. -/
def Ending.within (budget : Nat) (tally : Tally) (outcomes : List Lift.Outcome) :
    Ending → Except Error (Tally × Tree)
  | .canonical last =>
    if outcomes.length ≤ budget then .ok (outcomes.foldl Tally.count tally, last)
    else .error (.nonCanonicalizable (.budgetSpent (tally.lifts + budget)))
  | .stuck cause =>
    if outcomes.length < budget then .error cause
    else .error (.nonCanonicalizable (.budgetSpent (tally.lifts + budget)))

theorem Ending.within_cons (budget : Nat) (tally : Tally) (outcome : Lift.Outcome) :
    ending.within (budget + 1) tally (outcome :: outcomes) =
      ending.within budget (tally.count outcome) outcomes := by
  cases ending <;> simp [within, Nat.add_assoc, Nat.add_comm 1]

/-- A budget cuts off the run without a budget, and does nothing else to it. -/
theorem Settles.liftAll_eq {s : Subtree} (h : Settles g roots t outcomes ending)
    (hrep : t.Represents s) (budget : Nat) (tally : Tally) :
    (liftAll g roots budget tally).result t = ending.within budget tally outcomes := by
  induction h generalizing s budget tally with
  | canonical hdeviation =>
      cases budget with
      | zero => simp [result, liftAll_zero, hdeviation, Ending.within]
      | succ budget => simp [result, liftAll_succ, hdeviation, Ending.within]
  | stuck hdeviation hlift =>
      cases budget with
      | zero => simp [result, liftAll_zero, hdeviation, Ending.within]
      | succ budget => simp [result, liftAll_succ, hdeviation, hlift, Ending.within]
  | @lift t t' node outcome outcomes ending hdeviation hlift _ ih =>
      obtain ⟨hlifts, hmoved⟩ := hrep.lifts_of_deviation hdeviation hlift
      obtain ⟨s', hrep', _⟩ := hrep.of_lifts hlifts
      cases budget with
      | zero => cases ending <;> simp [result, liftAll_zero, hdeviation, Ending.within]
      | succ budget =>
          have hstep : liftAll g roots (budget + 1) tally t =
              liftAll g roots budget (tally.count outcome) t' := by
            rw [liftAll_succ, hdeviation]
            dsimp only
            rw [hlift]
            cases outcome with
            | alreadyLegal => exact absurd rfl hmoved
            | relocated | absorbed => rfl
          rw [Ending.within_cons, ← ih hrep' budget (tally.count outcome), result, result, hstep]

/-- A normalization that succeeds has lifted until there was no deviation. -/
theorem exists_settles_of_normalize {s : Subtree} {budget : Nat} {tally : Tally} {flat : Tree}
    (hrep : t.Represents s) (h : normalize g roots budget t = .ok tally flat) :
    ∃ outcomes last, Settles g roots t outcomes (.canonical last) ∧ outcomes.length ≤ budget ∧
      tally = outcomes.foldl Tally.count .zero ∧ flat = last.compact := by
  obtain ⟨outcomes, ending, hsettles⟩ := exists_settles g roots hrep
  rw [normalize_eq, hsettles.liftAll_eq hrep] at h
  cases ending with
  | stuck cause => by_cases hlt : outcomes.length < budget <;> simp [Ending.within, hlt] at h
  | canonical last =>
      by_cases hle : outcomes.length ≤ budget
      · simp only [Ending.within, if_pos hle] at h
        cases h
        exact ⟨outcomes, last, hsettles, hle, rfl, rfl⟩
      · simp [Ending.within, hle] at h

/-- A normalization that fails has met a deviation that cannot be lifted, or has spent its budget
before lifting ended. -/
theorem exists_settles_of_normalize_error {s : Subtree} {budget : Nat} {cause : Error}
    {left : Tree} (hrep : t.Represents s) (h : normalize g roots budget t = .error cause left) :
    ∃ outcomes ending, Settles g roots t outcomes ending ∧
      (ending = .stuck cause ∧ outcomes.length < budget ∨
        cause = .nonCanonicalizable (.budgetSpent budget) ∧
          (budget < outcomes.length ∨
            budget = outcomes.length ∧ ∃ obstacle, ending = .stuck obstacle)) := by
  obtain ⟨outcomes, ending, hsettles⟩ := exists_settles g roots hrep
  refine ⟨outcomes, ending, hsettles, ?_⟩
  have hspent : Tally.zero.lifts + budget = budget := Nat.zero_add budget
  rw [normalize_eq, hsettles.liftAll_eq hrep] at h
  cases ending with
  | canonical last =>
      by_cases hle : outcomes.length ≤ budget
      · simp [Ending.within, hle] at h
      · simp only [Ending.within, if_neg hle, hspent] at h
        cases h
        exact .inr ⟨rfl, .inl (Nat.lt_of_not_le hle)⟩
  | stuck obstacle =>
      by_cases hlt : outcomes.length < budget
      · simp only [Ending.within, if_pos hlt] at h
        cases h
        exact .inl ⟨rfl, hlt⟩
      · simp only [Ending.within, if_neg hlt, hspent] at h
        cases h
        rcases Nat.lt_or_eq_of_le (Nat.le_of_not_lt hlt) with hbudget | hbudget
        · exact .inr ⟨rfl, .inl hbudget⟩
        · exact .inr ⟨rfl, .inr ⟨hbudget, obstacle, rfl⟩⟩

theorem Settles.ne_budgetSpent {s : Subtree} {cause : Error} (h : Settles g roots t outcomes ending)
    (hrep : t.Represents s) (hending : ending = .stuck cause) (lifts : Nat) :
    cause ≠ .nonCanonicalizable (.budgetSpent lifts) := by
  induction h generalizing s with
  | canonical => cases hending
  | @stuck t left node cause' hdeviation hlift =>
      cases hending
      rw [Tree.deviation?, hrep.subtree_eq] at hdeviation
      obtain ⟨path, below, rfl, rfl, _, _⟩ := Subtree.exists_path_of_deviation hdeviation
      have hsim := hrep.lift (g := g)
      cases hs : below.lift g t.nodes.size path with
      | ok result =>
          rw [hs, hlift] at hsim
          obtain ⟨_, heq, _⟩ := hsim
          cases heq
      | error cause'' =>
          rw [hs, hlift] at hsim
          cases hsim
          exact Subtree.lift_ne_budgetSpent hs lifts
  | lift hdeviation hlift _ ih =>
      obtain ⟨hlifts, _⟩ := hrep.lifts_of_deviation hdeviation hlift
      obtain ⟨s', hrep', _⟩ := hrep.of_lifts hlifts
      exact ih hrep' hending

/-- Nodes that are forbidden in their slots cannot be lifted forever, so lifting first deviations
ends in one way. A normalization ends as this does if its budget reaches so far, and otherwise it
says that its budget is spent. -/
theorem normalize_cuts_off_settling {e : Expr} (g : Grammar) (roots : KindSet)
    (h : Tree.ofExpr e = .ok t) :
    (¬ ∃ ts : ℕ → Tree, ts 0 = t ∧ ∀ i, g.Lifts (ts i) (ts (i + 1))) ∧
    ∃ outcomes ending, Settles g roots t outcomes ending ∧
      (∀ outcomes' ending', Settles g roots t outcomes' ending' →
        outcomes' = outcomes ∧ ending' = ending) ∧
      ∀ budget, match ending with
        | .canonical last =>
          ((∃ tally t', normalize g roots budget t = .ok tally t' ∧
            tally.lifts = outcomes.length ∧ t' = last.compact) ↔ outcomes.length ≤ budget) ∧
          (budget < outcomes.length → normalize g roots budget t =
            .error (.nonCanonicalizable (.budgetSpent budget)) t)
        | .stuck cause =>
          (normalize g roots budget t = .error cause t ↔ outcomes.length < budget) ∧
          (budget ≤ outcomes.length → normalize g roots budget t =
            .error (.nonCanonicalizable (.budgetSpent budget)) t) := by
  obtain ⟨s, hrep, _⟩ := Tree.represents_of_ofExpr h
  constructor
  · rintro ⟨ts, hzero, hstep⟩
    exact (acc_iff_isEmpty_descending_chain.mp (hrep.acc_lifts (g := g))).false ⟨ts, hzero, hstep⟩
  · obtain ⟨outcomes, ending, hsettles⟩ := exists_settles g roots hrep
    refine ⟨outcomes, ending, hsettles, fun _ _ => hsettles.unique, ?_⟩
    intro budget
    have hall := hsettles.liftAll_eq hrep budget .zero
    have hspent : Tally.zero.lifts + budget = budget := Nat.zero_add budget
    cases ending with
    | canonical last =>
        by_cases hle : outcomes.length ≤ budget
        · have hlifts : (outcomes.foldl Tally.count .zero).lifts = outcomes.length :=
            (lifts_foldl_count outcomes .zero).trans (Nat.zero_add _)
          simp [normalize_eq, hall, Ending.within, hle, hlifts]
        · simp [normalize_eq, hall, Ending.within, hle, hspent]
    | stuck cause =>
        have hcause := hsettles.ne_budgetSpent hrep rfl budget
        by_cases hlt : outcomes.length < budget
        · simp [normalize_eq, hall, Ending.within, hlt]
        · simp [normalize_eq, hall, Ending.within, hlt, hspent, hcause.symm]

/-- A rename below a condition is relocated once, and then no deviation is left. A budget of one lift
is enough for it, and one of none is not. -/
theorem normalize_cuts_off_settling_rename :
    let e := Expr.assign "V" (.condition (.name "a") (.rename "a" "b" (.input1 "t")))
    let roots := KindSet.ofList [.assign]
    ∃ t last, Tree.ofExpr e = .ok t ∧
      (¬ ∃ ts : ℕ → Tree, ts 0 = t ∧ ∀ i, Grammar.flatSelect.Lifts (ts i) (ts (i + 1))) ∧
      Settles .flatSelect roots t [.relocated ⟨7, 1⟩ 1] (.canonical last) ∧
      last.toExpr = .assign "V" (.rename "a" "b" (.condition (.name "b") (.input1 "t"))) ∧
      (∀ outcomes' ending', Settles .flatSelect roots t outcomes' ending' →
        outcomes' = [.relocated ⟨7, 1⟩ 1] ∧ ending' = .canonical last) ∧
      (∀ budget, ((∃ tally t', normalize .flatSelect roots budget t = .ok tally t' ∧
        tally.lifts = 1 ∧ t' = last.compact) ↔ 1 ≤ budget) ∧
        (budget < 1 → normalize .flatSelect roots budget t =
          .error (.nonCanonicalizable (.budgetSpent budget)) t)) ∧
      normalize .flatSelect roots 0 t = .error (.nonCanonicalizable (.budgetSpent 0)) t ∧
      normalize .flatSelect roots 1 t = .ok ⟨1, 0⟩ last.compact := by
  intro e roots
  let t := Tree.planted e
  have ht : Tree.ofExpr e = .ok t := Tree.ofExpr_eq_ok.mpr ⟨rfl, rfl⟩
  have hends : (match lift .flatSelect 5 t with
      | .ok outcome last => decide (outcome = .relocated ⟨7, 1⟩ 1 ∧
          last.deviation? .flatSelect roots = none ∧
          last.toExpr = .assign "V" (.rename "a" "b" (.condition (.name "b") (.input1 "t"))))
      | .error _ _ => false) = true := by decide +kernel
  cases hlift : lift .flatSelect 5 t with
  | error cause left =>
      rw [hlift] at hends
      cases hends
  | ok outcome last =>
      rw [hlift] at hends
      obtain ⟨rfl, hnone, hexpr⟩ := of_decide_eq_true hends
      have hdeviation : t.deviation? .flatSelect roots = some 5 := by decide +kernel
      have hrun : Settles .flatSelect roots t [.relocated ⟨7, 1⟩ 1] (.canonical last) :=
        .lift hdeviation hlift (.canonical hnone)
      obtain ⟨hfinite, outcomes, ending, _, hunique, hbudget⟩ :=
        normalize_cuts_off_settling .flatSelect roots ht
      obtain ⟨rfl, rfl⟩ := hunique _ _ hrun
      -- What a normalization counts is read off its run, and there is one run only.
      obtain ⟨tally, _, hone, _, rfl⟩ := (hbudget 1).1.mpr le_rfl
      obtain ⟨s, hrep, _⟩ := Tree.represents_of_ofExpr ht
      obtain ⟨_, _, hsettles, _, rfl, _⟩ := exists_settles_of_normalize hrep hone
      obtain ⟨rfl, _⟩ := hunique _ _ hsettles
      exact ⟨t, last, ht, hfinite, hrun, hexpr, hunique, hbudget,
        (hbudget 0).2 Nat.zero_lt_one, hone⟩

end Edit

end FlatSelect
