import FlatSelect.Proofs.Bare
import FlatSelect.Proofs.Termination

/-!
# Normalization of bare subtrees

What a normalization makes of a tree is settled by the subtree that it bears: what a lift comes to
can be computed without numbers (`Subtree.lift_of_bears`). `Subtree.Settles` says that lifting first
deviations ends in a given result after at most so many lifts.

It is built up backwards, and for two wholes at a time, with equally many lifts for either
(`Subtree.Abreast`). Two wholes without deviations are settled, and if two wholes are settled that
come of lifting one node in each, then so are the two before (`Subtree.abreast_of_lift`). One whole
is abreast of itself.
-/

namespace FlatSelect

namespace Edit.Ending

/-- How lifting ends after some `lifts`, said of what the tree bears: with a budget of `n` it ends
in the same way. -/
def Yields (lifts n : Nat) : Ending → Except Error Subtree → Prop
  | .canonical last, .ok s => lifts ≤ n ∧ last.Bears s
  | .stuck cause, .error cause' => lifts < n ∧ cause = cause'
  | _, _ => False

variable {lifts n : Nat} {ending : Ending} {result : Except Error Subtree}

theorem Yields.mono {m : Nat} (h : ending.Yields lifts n result) (hle : n ≤ m) :
    ending.Yields lifts m result := by
  cases ending <;> cases result <;> first | exact h.elim | exact ⟨by have := h.1; omega, h.2⟩

theorem Yields.succ (h : ending.Yields lifts n result) :
    ending.Yields (lifts + 1) (n + 1) result := by
  cases ending <;> cases result <;> first | exact h.elim | exact ⟨by have := h.1; omega, h.2⟩

end Edit.Ending

theorem Tree.Bears.deviation?_eq_none_iff {t : Tree} {s : Subtree} {g : Grammar} {roots : KindSet}
    (h : t.Bears s) : t.deviation? g roots = none ↔ s.deviation? g roots = none := by
  obtain ⟨numbered, hrep, rfl⟩ := h
  rw [Tree.deviation?, hrep.subtree_eq, Subtree.deviation?_bare, Option.map_eq_none_iff]

/-- The outcome of a lift without the number of the parent. -/
def Lift.Outcome.unnumbered : Lift.Outcome → Lift.Outcome
  | .relocated place steps => .relocated ⟨0, place.slot⟩ steps
  | outcome => outcome

/-- Two results are both successes, or failures for one cause. -/
def FailAlike {α β : Type} : Except Error α → Except Error β → Prop
  | .ok _, .ok _ => True
  | .error cause, .error cause' => cause' = cause
  | _, _ => False

theorem FailAlike.refl {α : Type} : (result : Except Error α) → FailAlike result result
  | .ok _ => trivial
  | .error _ => rfl

namespace Subtree

theorem bareResult_eq (lifted : Lift.Outcome × Subtree) :
    bareResult lifted = (lifted.1.unnumbered, lifted.2.bare) := by
  obtain ⟨outcome, whole⟩ := lifted
  cases outcome <;> rfl

variable {g : Grammar} {roots : KindSet} {s s' node whole next next' : Subtree} {path : Path}
  {n : Nat} {result result' : Except Error Subtree}

/-- Taking numbers back at the first deviation. -/
theorem exists_deviation {t : Tree} (ht : t.Bears (path.fill node)) (hclear : path.Clear g roots)
    (hnode : (path.expected g roots).contains node.kind = false) :
    ∃ (above : Path) (found : Subtree), t.Represents (above.fill found) ∧ above.bare = path ∧
      found.bare = node ∧ t.deviation? g roots = some found.id := by
  obtain ⟨numbered, hrep, hs⟩ := ht
  obtain ⟨above, found, rfl, rfl, rfl⟩ := exists_fill_of_bare hs
  refine ⟨above, found, hrep, rfl, rfl, ?_⟩
  rw [Tree.deviation?, hrep.subtree_eq]
  refine deviation?_fill_of_some (Path.clear_of_bare hclear) (deviation?_of_not_expected ?_)
  rwa [Path.expected_bare, bare_kind] at hnode

/-- What lifting the first deviation of a tree comes to is known up to the numbers. -/
theorem lift_of_bears {t : Tree} (ht : t.Bears (path.fill node)) (hclear : path.Clear g roots)
    (hnode : (path.expected g roots).contains node.kind = false) :
    ∃ id, t.deviation? g roots = some id ∧ t.kind id = node.kind ∧
      match node.lift g 0 path with
      | .ok (outcome, whole) => ∃ outcome' t', Edit.lift g id t = .ok outcome' t' ∧
        outcome'.unnumbered = outcome ∧ t'.Bears whole
      | .error cause => Edit.lift g id t = .error cause t := by
  obtain ⟨above, found, hrep, rfl, rfl, hdeviation⟩ := exists_deviation ht hclear hnode
  refine ⟨found.id, hdeviation, by rw [hrep.kind_foot, bare_kind], ?_⟩
  have hlift := hrep.lift (g := g)
  rw [lift_bare g t.nodes.size]
  cases hs : found.lift g t.nodes.size above with
  | error cause =>
      rw [hs] at hlift
      exact hlift
  | ok lifted =>
      rw [hs] at hlift
      obtain ⟨t', hrun, hrep'⟩ := hlift
      rw [Except.map, bareResult_eq]
      exact ⟨lifted.1, t', hrun, rfl, lifted.2, hrep', rfl⟩

/-- Lifting first deviations ends in `result`, and a budget of `n` is enough for that. -/
def Settles (g : Grammar) (roots : KindSet) (s : Subtree) (n : Nat)
    (result : Except Error Subtree) : Prop :=
  ∀ t : Tree, t.Bears s → ∃ outcomes ending, Edit.Settles g roots t outcomes ending ∧
    ending.Yields outcomes.length n result

/-- Lifting first deviations of two wholes takes equally many lifts, and a budget of `n` is enough
for that. It ends in `result` for the one and in `result'` for the other, and gets stuck for both or
for neither. -/
def Abreast (g : Grammar) (roots : KindSet) (s s' : Subtree) (n : Nat)
    (result result' : Except Error Subtree) : Prop :=
  FailAlike result result' ∧ ∀ t t' : Tree, t.Bears s → t'.Bears s' →
    ∃ outcomes ending outcomes' ending',
      Edit.Settles g roots t outcomes ending ∧ Edit.Settles g roots t' outcomes' ending' ∧
        outcomes'.length = outcomes.length ∧ ending.Yields outcomes.length n result ∧
        ending'.Yields outcomes'.length n result'

/-- The first deviation of a whole is lifted, and that comes to `lifted`. -/
def LiftsTo (g : Grammar) (roots : KindSet) (s : Subtree) (lifted : Except Error Subtree) : Prop :=
  ∃ (path : Path) (node : Subtree), path.fill node = s ∧ path.Clear g roots ∧
    (path.expected g roots).contains node.kind = false ∧
    (node.lift g 0 path).map Prod.snd = lifted

theorem LiftsTo.exists_lift {t : Tree} (h : s.LiftsTo g roots (.ok next)) (ht : t.Bears s) :
    ∃ id outcome t', t.deviation? g roots = some id ∧ Edit.lift g id t = .ok outcome t' ∧
      t'.Bears next := by
  obtain ⟨path, node, rfl, hclear, hnode, hlifted⟩ := h
  obtain ⟨id, hdeviation, _, hlift⟩ := lift_of_bears ht hclear hnode
  cases hrun : node.lift g 0 path with
  | error cause =>
      rw [hrun] at hlifted
      cases hlifted
  | ok lifted =>
      rw [hrun] at hlift hlifted
      cases hlifted
      obtain ⟨outcome, t', hok, _, hbears⟩ := hlift
      exact ⟨id, outcome, t', hdeviation, hok, hbears⟩

theorem LiftsTo.exists_error {t : Tree} {cause : Error} (h : s.LiftsTo g roots (.error cause))
    (ht : t.Bears s) :
    ∃ id, t.deviation? g roots = some id ∧ Edit.lift g id t = .error cause t := by
  obtain ⟨path, node, rfl, hclear, hnode, hlifted⟩ := h
  obtain ⟨id, hdeviation, _, hlift⟩ := lift_of_bears ht hclear hnode
  cases hrun : node.lift g 0 path with
  | ok lifted =>
      rw [hrun] at hlifted
      cases hlifted
  | error cause' =>
      rw [hrun] at hlift hlifted
      cases hlifted
      exact ⟨id, hdeviation, hlift⟩

theorem Abreast.settles (h : s.Abreast g roots s n result result) : s.Settles g roots n result := by
  intro t ht
  obtain ⟨outcomes, ending, _, _, hsettles, _, _, hyields, _⟩ := h.2 t t ht ht
  exact ⟨outcomes, ending, hsettles, hyields⟩

theorem Abreast.mono {m : Nat} (h : s.Abreast g roots s' n result result') (hle : n ≤ m) :
    s.Abreast g roots s' m result result' := by
  refine ⟨h.1, ?_⟩
  intro t t' ht ht'
  obtain ⟨outcomes, ending, outcomes', ending', hsettles, hsettles', hlength, hyields, hyields'⟩ :=
    h.2 t t' ht ht'
  exact ⟨outcomes, ending, outcomes', ending', hsettles, hsettles', hlength, hyields.mono hle,
    hyields'.mono hle⟩

theorem abreast_of_canonical (h : s.deviation? g roots = none)
    (h' : s'.deviation? g roots = none) : s.Abreast g roots s' 0 (.ok s) (.ok s') :=
  ⟨trivial, fun t t' ht ht' => ⟨[], .canonical t, [], .canonical t',
    .canonical (ht.deviation?_eq_none_iff.mpr h), .canonical (ht'.deviation?_eq_none_iff.mpr h'),
    rfl, ⟨Nat.le_refl _, ht⟩, ⟨Nat.le_refl _, ht'⟩⟩⟩

theorem abreast_of_error {cause : Error} (h : s.LiftsTo g roots (.error cause))
    (h' : s'.LiftsTo g roots (.error cause)) :
    s.Abreast g roots s' 1 (.error cause) (.error cause) := by
  refine ⟨rfl, ?_⟩
  intro t t' ht ht'
  obtain ⟨id, hdeviation, hlift⟩ := h.exists_error ht
  obtain ⟨id', hdeviation', hlift'⟩ := h'.exists_error ht'
  exact ⟨[], .stuck cause, [], .stuck cause, .stuck hdeviation hlift, .stuck hdeviation' hlift',
    rfl, ⟨Nat.zero_lt_one, rfl⟩, ⟨Nat.zero_lt_one, rfl⟩⟩

theorem abreast_of_lift (h : s.LiftsTo g roots (.ok next)) (h' : s'.LiftsTo g roots (.ok next'))
    (hnext : next.Abreast g roots next' n result result') :
    s.Abreast g roots s' (n + 1) result result' := by
  refine ⟨hnext.1, ?_⟩
  intro t t' ht ht'
  obtain ⟨id, outcome, u, hdeviation, hlift, hu⟩ := h.exists_lift ht
  obtain ⟨id', outcome', u', hdeviation', hlift', hu'⟩ := h'.exists_lift ht'
  obtain ⟨outcomes, ending, outcomes', ending', hsettles, hsettles', hlength, hyields, hyields'⟩ :=
    hnext.2 u u' hu hu'
  refine ⟨_, ending, _, ending', .lift hdeviation hlift hsettles,
    .lift hdeviation' hlift' hsettles', ?_, hyields.succ, hyields'.succ⟩
  rw [List.length_cons, List.length_cons, hlength]

section Folds

variable {α α' β : Type} {finish : α → Except Error Subtree} {finish' : α' → Except Error Subtree}

/-- A lift that fails in both wholes, or that comes to something in both. -/
theorem abreast_of_lifted {added : Except Error α} {added' : Except Error α'}
    {whole : α → Subtree} {whole' : α' → Subtree} (hadded : FailAlike added added')
    (h : s.LiftsTo g roots (added.map whole)) (h' : s'.LiftsTo g roots (added'.map whole'))
    (hwhole : ∀ a a', added = .ok a → added' = .ok a' →
      (whole a).Abreast g roots (whole' a') n (finish a) (finish' a')) :
    s.Abreast g roots s' (n + 1) (added >>= finish) (added' >>= finish') := by
  cases added with
  | error cause =>
      cases added' with
      | ok => exact hadded.elim
      | error cause' =>
          obtain rfl : cause' = cause := hadded
          exact (abreast_of_error h h').mono (by omega)
  | ok a =>
      cases added' with
      | error => exact hadded.elim
      | ok a' => exact abreast_of_lift h h' (hwhole a a' rfl rfl)

/-- If what is to be lifted is in both wholes read off one list, the runs are folds over that list,
with a lift for a member at most. -/
theorem abreast_foldlM (step : α → β → Except Error α) (step' : α' → β → Except Error α')
    (whole : α → List β → Subtree) (whole' : α' → List β → Subtree) (bs : List β)
    (hstep : ∀ a a', ∀ b ∈ bs, ∀ rest, FailAlike (step a b) (step' a' b) ∧
      (whole a (b :: rest)).LiftsTo g roots ((step a b).map (whole · rest)) ∧
        (whole' a' (b :: rest)).LiftsTo g roots ((step' a' b).map (whole' · rest)))
    (hnil : ∀ a a', (whole a []).Abreast g roots (whole' a' []) n (finish a) (finish' a')) (a : α)
    (a' : α') : (whole a bs).Abreast g roots (whole' a' bs) (bs.length + n)
      (bs.foldlM step a >>= finish) (bs.foldlM step' a' >>= finish') := by
  induction bs generalizing a a' with
  | nil => exact (hnil a a').mono (by simp)
  | cons b rest ih =>
      obtain ⟨hfails, hhere, hthere⟩ := hstep a a' b List.mem_cons_self rest
      have hrest := ih fun a a' b hb => hstep a a' b (List.mem_cons_of_mem _ hb)
      rw [List.foldlM_cons, List.foldlM_cons, bind_assoc, bind_assoc, List.length_cons]
      exact (abreast_of_lifted hfails hhere hthere fun a a' _ _ => hrest a a').mono (by omega)

end Folds

end Subtree

namespace Edit

/-- A normalization whose budget is large enough ends as lifting does. -/
theorem normalize_of_settles {g : Grammar} {roots : KindSet} {t : Tree} {s : Subtree}
    {n budget : Nat} {result : Except Error Subtree} (h : s.Settles g roots n result)
    (ht : t.Bears s) (hbudget : n ≤ budget) :
    match result with
    | .ok whole => ∃ (tally : Tally) (last : Tree),
      normalize g roots budget t = .ok tally last.compact ∧ last.Bears whole
    | .error cause => normalize g roots budget t = .error cause t := by
  obtain ⟨outcomes, ending, hsettles, hyields⟩ := h t ht
  obtain ⟨numbered, hrep, _⟩ := ht
  have hall := hsettles.liftAll_eq hrep budget .zero
  cases ending with
  | canonical last =>
      cases result with
      | error => exact hyields.elim
      | ok whole =>
          obtain ⟨hle, hbears⟩ := hyields
          rw [Ending.within, if_pos (Nat.le_trans hle hbudget)] at hall
          exact ⟨_, last, by rw [normalize_eq, hall], hbears⟩
  | stuck cause =>
      cases result with
      | ok => exact hyields.elim
      | error =>
          obtain ⟨hlt, rfl⟩ := hyields
          rw [Ending.within, if_pos (Nat.lt_of_lt_of_le hlt hbudget)] at hall
          simp only [normalize_eq, hall]

/-- A normalization that succeeds, whatever its budget, ends as lifting does. -/
theorem settles_of_normalize {g : Grammar} {roots : KindSet} {t flat : Tree} {s : Subtree}
    {n budget : Nat} {result : Except Error Subtree} {tally : Tally}
    (h : s.Settles g roots n result) (ht : t.Bears s)
    (hrun : normalize g roots budget t = .ok tally flat) :
    ∃ (whole : Subtree) (last : Tree), result = .ok whole ∧ flat = last.compact ∧
      last.Bears whole := by
  obtain ⟨outcomes, ending, hsettles, hyields⟩ := h t ht
  obtain ⟨numbered, hrep, _⟩ := ht
  obtain ⟨_, last, hsettles', _, _, rfl⟩ := exists_settles_of_normalize hrep hrun
  obtain ⟨_, rfl⟩ := hsettles.unique hsettles'
  cases result with
  | error => exact hyields.elim
  | ok whole => exact ⟨whole, last, rfl, rfl, hyields.2⟩

/-- Where lifting goes on abreast, a normalization succeeds for both wholes or for neither, whatever
its budget. -/
theorem normalize_of_abreast {g : Grammar} {roots : KindSet} {t t' : Tree} {s s' : Subtree}
    {n : Nat} {result result' : Except Error Subtree}
    (h : s.Abreast g roots s' n result result') (ht : t.Bears s) (ht' : t'.Bears s')
    (budget : Nat) :
    match normalize g roots budget t, normalize g roots budget t' with
    | .ok tally flat, .ok tally' flat' => tally'.lifts = tally.lifts ∧
      (∃ whole last, result = .ok whole ∧ flat = Tree.compact last ∧ last.Bears whole) ∧
      ∃ whole last, result' = .ok whole ∧ flat' = Tree.compact last ∧ last.Bears whole
    | .error cause left, .error cause' left' => cause' = cause ∧ left = t ∧ left' = t'
    | _, _ => False := by
  obtain ⟨hfails, hruns⟩ := h
  obtain ⟨outcomes, ending, outcomes', ending', hsettles, hsettles', hlength, hyields, hyields'⟩ :=
    hruns t t' ht ht'
  obtain ⟨_, hrep, _⟩ := ht
  obtain ⟨_, hrep', _⟩ := ht'
  rw [normalize_eq, normalize_eq, hsettles.liftAll_eq hrep, hsettles'.liftAll_eq hrep']
  cases ending with
  | canonical last =>
      cases result with
      | error => exact hyields.elim
      | ok whole =>
          cases result' with
          | error => exact hfails.elim
          | ok whole' =>
              cases ending' with
              | stuck => exact hyields'.elim
              | canonical last' =>
                  rw [Ending.within, Ending.within, hlength]
                  by_cases hle : outcomes.length ≤ budget
                  · rw [if_pos hle, if_pos hle]
                    refine ⟨?_, ⟨whole, last, rfl, rfl, hyields.2⟩,
                      whole', last', rfl, rfl, hyields'.2⟩
                    rw [lifts_foldl_count, lifts_foldl_count, hlength]
                  · rw [if_neg hle, if_neg hle]
                    exact ⟨rfl, rfl, rfl⟩
  | stuck cause =>
      cases result with
      | ok => exact hyields.elim
      | error =>
          cases result' with
          | ok => exact hfails.elim
          | error =>
              cases ending' with
              | canonical => exact hyields'.elim
              | stuck cause' =>
                  obtain ⟨_, rfl⟩ := hyields
                  obtain ⟨_, rfl⟩ := hyields'
                  rw [Ending.within, Ending.within, hlength]
                  by_cases hlt : outcomes.length < budget
                  · rw [if_pos hlt, if_pos hlt]
                    exact ⟨hfails, rfl, rfl⟩
                  · rw [if_neg hlt, if_neg hlt]
                    exact ⟨rfl, rfl, rfl⟩

/-- A normalization that has been computed is one of the tree that is built from the expression. -/
theorem exists_normalize {g : Grammar} {roots : KindSet} {budget : Nat} {e result : Expr}
    {tally : Tally} (hcheck : e.check = .ok ())
    (hrun : ((normalize g roots budget).result (.planted e)).toOption.map
      (Prod.map id Tree.toExpr) = some (tally, result)) :
    ∃ t flat, Tree.ofExpr e = .ok t ∧ normalize g roots budget t = .ok tally flat ∧
      flat.toExpr = result := by
  rw [Edit.result] at hrun
  cases hnormalize : normalize g roots budget (.planted e) with
  | error =>
      rw [hnormalize] at hrun
      cases hrun
  | ok tally' flat =>
      rw [hnormalize] at hrun
      cases hrun
      exact ⟨_, flat, Tree.ofExpr_eq_ok.mpr ⟨hcheck, rfl⟩, hnormalize, rfl⟩

end Edit

end FlatSelect
