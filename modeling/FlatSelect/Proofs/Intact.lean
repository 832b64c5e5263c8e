import FlatSelect.Proofs.Inlining

/-!
# What every tree keeps

A tree can be got from an expression by inlining views, lifting nodes, normalizing, compacting and
overwriting values, in any order (`Tree.Reached`). Whether these succeed or not, what can be reached
in the tree is regular, and its dead nodes are at rest (`Tree.Reached.intact`).

With that, a normalization has nothing left to do when it is done: the tree that it gives conforms
to the grammar, and to normalize it again changes nothing
(`Tree.Reached.normalize_normalize`).
-/

namespace FlatSelect

/-- The tree as it is after an edit, also after one that fails. -/
def Edit.left {α : Type} (e : Edit α) (t : Tree) : Tree :=
  match e t with
  | .ok _ changed => changed
  | .error _ left => left

namespace Subtree

variable {c : Contract} {s : Subtree} {path : Path} {old new : Value}

/-- A value may give way to one that fits wherever it does. -/
theorem Regular.overwrite (h : (path.fill s).Regular c) (hold : s.value = some old)
    (hfits : ∀ kind, c.fits kind old = true → c.fits kind new = true) :
    (path.fill (s.setValue new)).Regular c := by
  have hs : s.Regular c := h.foot
  have hkind := hs.constant_of_value hold
  have hnew : (s.setValue new).Regular c := by
    obtain ⟨hproper, hall⟩ := regular_iff.mp hs
    refine ⟨⟨iff_of_true rfl hkind, hproper.length_eq, ?_⟩, hall⟩
    intro hkeeps
    change s.kind.hasParameter = true at hkeeps
    rw [hkind] at hkeeps
    cases hkeeps
  cases path with
  | nil => exact hnew
  | cons f above =>
      have hparent : (f.fill (some s)).Regular c := @Regular.foot c _ above h
      obtain ⟨hf, htakes, _⟩ := Frame.regular_fill.mp hparent
      refine @Regular.replace c (f.fill (some s)) (f.fill (some (s.setValue new))) above h
        (Frame.kind_ne_constant hf.length_eq) (Frame.regular_fill.mpr ⟨hf, ?_, hnew⟩)
      intro hkeeps hslot
      obtain ⟨v, hv, hfit⟩ := htakes hkeeps hslot
      rw [hold] at hv
      cases hv
      exact ⟨new, rfl, hfits f.kind hfit⟩

end Subtree

namespace Tree

variable {t t' view : Tree} {s : Subtree} {graves : Records} {c : Contract} {g : Grammar}
  {roots : KindSet}

/-- A number is that of a node that can be reached, or of a dead one, or of none. -/
theorem Holds.number_cases (h : t.Holds s graves) (id : NodeId) :
    id ∈ s.ids ∨ (∃ n, (id, n) ∈ graves ∧ t.node id = n) ∨ t.node id = .absent := by
  by_cases hlt : id < t.nodes.size
  · rw [← h.stores.mem_keys, Multiset.map_add, Multiset.mem_add, Subtree.keys_records] at hlt
    rcases hlt with hlive | hdead
    · exact .inl (Multiset.mem_coe.mp hlive)
    · obtain ⟨⟨_, n⟩, hmem, rfl⟩ := Multiset.mem_map.mp hdead
      exact .inr (.inl ⟨n, hmem, h.stores.node_eq _ (Multiset.mem_add.mpr (.inr hmem))⟩)
  · exact .inr (.inr (node_absent (Nat.le_of_not_lt hlt)))

/-- Compacting a tree without vacant slots builds the tree of its expression, so doing it twice is
doing it once. -/
theorem Holds.compact (h : t.Holds s graves) (hfull : s.full = true) :
    ∃ s', t.compact.Holds s' 0 ∧ s'.toExpr = s.toExpr ∧ s'.full = true ∧
      t.compact.compact = t.compact := by
  have hplanted := h.represents.compact_eq hfull
  obtain ⟨s', hholds, hexpr, hs'⟩ := exists_holds_planted s.toExpr
  rw [← hplanted] at hholds
  refine ⟨s', hholds, hexpr, hs', ?_⟩
  rw [hholds.represents.compact_eq hs', hexpr, hplanted]

/-- The compacted tree is the same but for numbers, and deviations do not depend on these. -/
theorem Holds.deviation?_compact (h : t.Holds s graves) (hfull : s.full = true)
    (hnone : t.deviation? g roots = none) : t.compact.deviation? g roots = none := by
  obtain ⟨flat, hflat, hexpr, hfull', _⟩ := h.compact hfull
  have hbare : flat.bare = s.bare := by
    rw [Subtree.bare_eq_of_full hfull', Subtree.bare_eq_of_full hfull, hexpr]
  have hmap := flat.deviation?_bare g roots
  rw [deviation?, h.subtree_eq] at hnone
  rw [deviation?, hflat.subtree_eq]
  rw [hbare, s.deviation?_bare g roots, hnone] at hmap
  exact Option.map_eq_none_iff.mp hmap.symm

/-- What can be reached is regular, and what is dead is at rest. -/
def Intact (c : Contract) (t : Tree) : Prop :=
  ∃ s graves, t.Holds s graves ∧ s.Regular c ∧ graves.Resting

theorem intact_of_ofExpr {e : Expr} (h : ofExpr e = .ok t) : t.Intact c := by
  obtain ⟨s, hholds, rfl, hfull⟩ := holds_of_ofExpr h
  exact ⟨s, 0, hholds, (Subtree.regular_toExpr hfull).mp
    (Expr.regular_of_check (ofExpr_eq_ok.mp h).1), Records.resting_zero⟩

namespace Intact

/-- An edit keeps a tree intact if it does so where it succeeds and changes nothing where it
fails. -/
theorem left {α : Type} {e : Edit α} (h : t.Intact c)
    (hok : ∀ a t', e t = .ok a t' → t'.Intact c)
    (herror : ∀ cause left, e t = .error cause left → left = t) : (e.left t).Intact c := by
  rw [Edit.left]
  cases hrun : e t with
  | ok a t' => exact hok a t' hrun
  | error cause left =>
      obtain rfl := herror cause left hrun
      exact h

/-- A node stands in what is regular, or there is nothing to lift. -/
theorem path_or_idle (h : t.Intact c) (node : NodeId) :
    (∃ (path : Path) (s : Subtree) (graves : Records), s.id = node ∧
      t.Holds (path.fill s) graves ∧ (path.fill s).Regular c ∧ graves.Resting) ∨
    ((t.kind node).hasOperand = true → t.place node = none) := by
  obtain ⟨s, graves, hholds, hreg, hrest⟩ := h
  rcases hholds.number_cases node with hlive | ⟨n, hmem, hnode⟩ | habsent
  · obtain ⟨path, below, rfl, hid⟩ := Subtree.exists_path_of_mem hlive
    exact .inl ⟨path, below, graves, hid, hholds, hreg, hrest⟩
  · refine .inr ?_
    rw [Tree.kind, Tree.place, hnode]
    exact hrest.idle _ hmem
  · refine .inr fun _ => ?_
    rw [Tree.place, habsent]
    rfl

/-- A lift that succeeds is one of a node in what is regular, or there was nothing to do. -/
theorem lift_cases {node : NodeId} {outcome : Lift.Outcome} (h : t.Intact c)
    (hlift : Edit.lift g node t = .ok outcome t') :
    (∃ (path : Path) (s whole : Subtree) (graves graves' : Records), s.id = node ∧
      t.Holds (path.fill s) graves ∧ (path.fill s).Regular c ∧
      s.lift g t.nodes.size path = .ok (outcome, whole) ∧ t'.Holds whole graves' ∧
      graves'.Resting) ∨ (outcome = .alreadyLegal ∧ t' = t) := by
  rcases h.path_or_idle node with ⟨path, s, graves, rfl, hholds, hreg, hrest⟩ | hidle
  · obtain ⟨whole, gone, hwhole, hleaves, hholds'⟩ := hholds.of_lift hlift
    have hs : s.Regular c := hreg.foot
    exact .inl ⟨path, s, whole, graves, gone + graves, rfl, hholds, hreg, hwhole, hholds',
      (hs.resting_of_leaves hleaves).add hrest⟩
  · rcases Edit.lift_of_idle g hidle with hsame | ⟨_, herror⟩
    · rw [hsame] at hlift
      cases hlift
      exact .inr ⟨rfl, rfl⟩
    · rw [herror] at hlift
      cases hlift

theorem lift {node : NodeId} {outcome : Lift.Outcome} (h : t.Intact c)
    (hlift : Edit.lift g node t = .ok outcome t') : t'.Intact c := by
  rcases h.lift_cases hlift with
    ⟨path, s, whole, graves, graves', _, _, hreg, hwhole, hholds', hrest⟩ | ⟨_, rfl⟩
  · exact ⟨whole, graves', hholds', hreg.of_lift hwhole, hrest⟩
  · exact h

theorem compact (h : t.Intact c) : t.compact.Intact c := by
  obtain ⟨s, graves, hholds, hreg, _⟩ := h
  obtain ⟨s', hholds', hexpr, hfull, _⟩ := hholds.compact hreg.full
  refine ⟨s', 0, hholds', ?_, Records.resting_zero⟩
  rw [← Subtree.regular_toExpr hfull, hexpr, Subtree.regular_toExpr hreg.full]
  exact hreg

/-- A tree that is compacted is written down as before. -/
theorem toExpr_compact (h : t.Intact c) : t.compact.toExpr = t.toExpr := by
  obtain ⟨s, graves, hholds, hreg, _⟩ := h
  obtain ⟨s', hholds', hexpr, _⟩ := hholds.compact hreg.full
  rw [hholds'.toExpr_eq, hexpr, hholds.toExpr_eq]

theorem of_settles {outcomes : List Lift.Outcome} {last : Tree} (h : t.Intact c)
    (hsettles : Edit.Settles g roots t outcomes (.canonical last)) : last.Intact c :=
  hsettles.keeps (Intact c) (fun ht _ hlift => ht.lift hlift) h

theorem normalize {budget : Nat} {tally : Tally} (h : t.Intact c)
    (hrun : Edit.normalize g roots budget t = .ok tally t') : t'.Intact c := by
  obtain ⟨s, graves, hholds, _⟩ := id h
  obtain ⟨outcomes, last, hsettles, _, _, rfl⟩ :=
    Edit.exists_settles_of_normalize hholds.represents hrun
  exact (h.of_settles hsettles).compact

/-- What a normalization gives has no deviation left. -/
theorem deviation?_of_normalize {budget : Nat} {tally : Tally} (h : t.Intact c)
    (hrun : Edit.normalize g roots budget t = .ok tally t') : t'.deviation? g roots = none := by
  obtain ⟨s, graves, hholds, _⟩ := id h
  obtain ⟨outcomes, last, hsettles, _, _, rfl⟩ :=
    Edit.exists_settles_of_normalize hholds.represents hrun
  obtain ⟨s', graves', hlast, hreg', _⟩ := h.of_settles hsettles
  exact hlast.deviation?_compact hreg'.full hsettles.deviation?_eq_none

theorem inline {count : Nat} (h : t.Intact c) (hview : view.Intact c)
    (hrun : Edit.inline view t = .ok count t') : t'.Intact c := by
  obtain ⟨s, graves, hholds, hreg, hrest⟩ := h
  obtain ⟨top, graves', hholds', htop, _⟩ := hview
  obtain ⟨_, _, s', gone, _, hresult, _, hs', hgone⟩ := hholds.inline hreg hholds' htop hrun
  exact ⟨s', gone + graves, hresult, hs', hgone.add hrest⟩

theorem setValue {id : NodeId} {old new : Value} (h : t.Intact c) (hold : t.value id = some old)
    (hfits : ∀ kind, c.fits kind old = true → c.fits kind new = true) :
    (t.setValue id new).Intact c := by
  obtain ⟨s, graves, hholds, hreg, hrest⟩ := h
  rcases hholds.number_cases id with hlive | ⟨n, hmem, hnode⟩ | habsent
  · obtain ⟨path, below, rfl, rfl⟩ := Subtree.exists_path_of_mem hlive
    have hfoot := hholds.stores_foot
    rw [hfoot.value_eq] at hold
    refine ⟨path.fill (below.setValue new), graves, ⟨?_, hholds.dead, ?_⟩,
      hreg.overwrite hold hfits, hrest⟩
    · exact (hfoot.setValue_subtree new).congr (by rw [path.records_fill, add_assoc]; rfl)
    · rw [root_setValue, hholds.root_eq]
      exact path.id_fill_congr rfl
  · obtain ⟨rest, rfl⟩ := Multiset.exists_cons_of_mem hmem
    rw [← Multiset.singleton_add] at hholds hrest
    have hrest' := hrest.setValue new
    have hset := (hholds.stores.congr (show _ = {(id, n)} + (s.records none + rest) by
      abel)).setValue new
    exact ⟨s, _, ⟨hset.congr (by abel), hrest'.dead, hholds.root_eq⟩, hreg, hrest'⟩
  · rw [Tree.value, habsent] at hold
    cases hold

end Intact

/-- A tree that has come of an expression by any of the changes that there are. Where one fails, it
goes on with the tree that is left. A value is overwritten in place, by one that fits wherever it
does. -/
inductive Reached (c : Contract) : Tree → Prop
  | built {e : Expr} {t : Tree} (h : ofExpr e = .ok t) : Reached c t
  | inline {view t : Tree} (hview : Reached c view) (h : Reached c t) :
    Reached c ((Edit.inline view).left t)
  | lift {t : Tree} (g : Grammar) (node : NodeId) (h : Reached c t) :
    Reached c ((Edit.lift g node).left t)
  | normalize {t : Tree} (g : Grammar) (roots : KindSet) (budget : Nat) (h : Reached c t) :
    Reached c ((Edit.normalize g roots budget).left t)
  | compact {t : Tree} (h : Reached c t) : Reached c t.compact
  | overwrite {t : Tree} {id : NodeId} {old new : Value} (h : Reached c t)
    (hold : t.value id = some old)
    (hfits : ∀ kind, c.fits kind old = true → c.fits kind new = true) :
    Reached c (t.setValue id new)

namespace Reached

theorem intact (h : Reached c t) : t.Intact c := by
  induction h with
  | built h => exact intact_of_ofExpr h
  | inline _ _ hview ih =>
      exact ih.left (fun _ _ => ih.inline hview) fun _ _ => Edit.eq_of_inline_eq_error
  | lift g node _ ih =>
      exact ih.left (fun _ _ => ih.lift) fun _ _ => Edit.eq_of_atomically_eq_error
  | normalize g roots budget _ ih =>
      exact ih.left (fun _ _ => ih.normalize) fun _ _ => Edit.eq_of_atomically_eq_error
  | compact _ ih => exact ih.compact
  | overwrite _ hold hfits ih => exact ih.setValue hold hfits

/-- What a normalization gives conforms to the grammar, and normalizing it once more, with whatever
budget, lifts nothing and gives the very same tree. -/
theorem normalize_normalize {budget : Nat} {tally : Tally} (h : Reached c t)
    (hrun : Edit.normalize g roots budget t = .ok tally t') :
    t'.conforms g roots = true ∧
      ∀ budget', Edit.normalize g roots budget' t' = .ok .zero t' := by
  obtain ⟨s, graves, hholds, hreg, _⟩ := id h.intact
  obtain ⟨outcomes, last, hsettles, _, _, rfl⟩ :=
    Edit.exists_settles_of_normalize hholds.represents hrun
  obtain ⟨s', graves', hlast, hreg', _⟩ := h.intact.of_settles hsettles
  obtain ⟨flat, hflat, _, _, hcompact⟩ := hlast.compact hreg'.full
  have hdeviation : last.compact.deviation? g roots = none :=
    hlast.deviation?_compact hreg'.full hsettles.deviation?_eq_none
  refine ⟨by rw [conforms, hdeviation]; rfl, ?_⟩
  intro budget'
  have hdone : Edit.Settles g roots last.compact [] (.canonical last.compact) :=
    .canonical hdeviation
  rw [Edit.normalize_eq, hdone.liftAll_eq hflat.represents]
  simp only [Edit.Ending.within, List.length_nil, Nat.zero_le, if_true, List.foldl_nil, hcompact]

/-- A view brings a rename in below a condition. One lift settles that, and then all is done. -/
theorem normalize_normalize_view :
    let view := Expr.assign "v" (.rename "a" "b" (.input1 "t"))
    let target := Expr.assign "V" (.condition (.name "a") (.input1 "v"))
    ∃ v t t', ofExpr view = .ok v ∧ ofExpr target = .ok t ∧
      Edit.normalize .flatSelect (.ofList [.assign]) 1 ((Edit.inline v).left t) =
        .ok ⟨1, 0⟩ t' ∧
      t'.conforms .flatSelect (.ofList [.assign]) = true ∧
      Edit.normalize .flatSelect (.ofList [.assign]) 1 t' = .ok .zero t' := by
  intro view target
  let v := planted view
  let t := planted target
  have hview : ofExpr view = .ok v := ofExpr_eq_ok.mpr ⟨rfl, rfl⟩
  have htarget : ofExpr target = .ok t := ofExpr_eq_ok.mpr ⟨rfl, rfl⟩
  have htally : (match Edit.normalize .flatSelect (.ofList [.assign]) 1
        ((Edit.inline v).left t) with
      | .ok tally _ => decide (tally = ⟨1, 0⟩)
      | .error _ _ => false) = true := by decide +kernel
  cases hrun : Edit.normalize .flatSelect (.ofList [.assign]) 1 ((Edit.inline v).left t) with
  | error => simp [hrun] at htally
  | ok tally t' =>
      have hreached : Reached .strict ((Edit.inline v).left t) :=
        .inline (.built hview) (.built htarget)
      obtain ⟨hconforms, hagain⟩ := hreached.normalize_normalize hrun
      rw [hrun] at htally
      obtain rfl := of_decide_eq_true htally
      exact ⟨v, t, t', hview, htarget, hrun, hconforms, hagain 1⟩

end Reached

end Tree

end FlatSelect
