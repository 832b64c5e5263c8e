import FlatSelect.Proofs.Predicates

/-!
# What projections list

A projection that lists no columns can come up in two ways. A derived column that is lifted out of
it leaves the list, and stands above it from then on: nothing but renames ever gets above that
column, so the statement has it among its columns (`Subtree.TopDerives`). Or two projections are
made into one, and their lists have nothing in common. All else that is done to a list leaves
something in it (`Transfer.listsColumns_of_rises`, `Transfer.listsColumns_of_absorbed`).

So a lift of the first deviation keeps a whole in which all projections list columns, or a derived
column is at the top, unless a projection is absorbed (`Subtree.Regular.shows_of_lift`).
-/

namespace FlatSelect

namespace Columns

variable {entries : List String} {new old asName : String}

/-- A list that a rename is taken into does not get shorter. -/
theorem foldRename?_ne_nil {entries' : List String}
    (h : foldRename? entries new old = some entries') (hentries : entries ≠ []) :
    entries' ≠ [] := by
  cases foldRename?_eq_iff.mp h with
  | named | added => exact List.append_ne_nil_of_right_ne_nil _ (List.cons_ne_nil _ _)
  | kept => exact hentries

/-- A list that has no use for a derived column does not have it. -/
theorem withoutDerived_of_not_selectDerived (h : selectDerived entries asName = false) :
    withoutDerived entries asName = entries := by
  refine withoutDerived_of_notMem fun hname => ?_
  rw [selectDerived_iff.mpr (selects_iff.mpr (.inl hname))] at h
  cases h

end Columns

namespace Subtree

/-- Every projection lists columns. -/
def ListsColumns (s : Subtree) : Prop :=
  ∀ n ∈ s.preorder, n.kind = .projection → n.slotValue 0 ≠ some (.columns [])

instance (s : Subtree) : Decidable s.ListsColumns :=
  inferInstanceAs (Decidable (∀ n ∈ s.preorder, _))

/-- A derived column is at the top, or has nothing but renames and the target above it. -/
inductive TopDerives : Subtree → Prop
  | top {s : Subtree} (hkind : s.kind = .extraColumn) : TopDerives s
  | under {s operand : Subtree} (hkind : s.kind = .assign ∨ s.kind = .rename)
    (hoperand : s.child 1 = some operand) (h : TopDerives operand) : TopDerives s

variable {s s' c : Subtree}

theorem listsColumns_iff : s.ListsColumns ↔
    (s.kind = .projection → s.slotValue 0 ≠ some (.columns [])) ∧
      ∀ child, some child ∈ s.slots → child.ListsColumns :=
  forall_mem_preorder

theorem topDerives_iff : s.TopDerives ↔ s.kind = .extraColumn ∨
    (s.kind = .assign ∨ s.kind = .rename) ∧ ∃ operand, s.child 1 = some operand ∧
      operand.TopDerives := by
  constructor
  · rintro (hkind | ⟨hkind, hoperand, h⟩)
    · exact .inl hkind
    · exact .inr ⟨hkind, _, hoperand, h⟩
  · rintro (hkind | ⟨hkind, _, hoperand, h⟩)
    · exact .top hkind
    · exact .under hkind hoperand h

/-- Whether a derived column is at the top goes by kinds alone. -/
theorem topDerives_map {f : Subtree → Subtree} (hkind : ∀ s, (f s).kind = s.kind)
    (hchild : ∀ s slot, (f s).child slot = (s.child slot).map f) :
    (f s).TopDerives ↔ s.TopDerives := by
  constructor
  · intro h
    generalize hs : f s = s' at h
    induction h generalizing s with
    | top htop =>
        rw [← hs, hkind] at htop
        exact .top htop
    | under htop hoperand _ ih =>
        rw [← hs, hkind] at htop
        rw [← hs, hchild] at hoperand
        obtain ⟨operand, hbelow, hoperand⟩ := Option.map_eq_some_iff.mp hoperand
        exact .under htop hbelow (ih hoperand)
  · intro h
    induction h with
    | top htop => exact .top ((hkind _).trans htop)
    | under htop hoperand _ ih =>
        refine .under (by rwa [hkind]) ?_ ih
        rw [hchild, hoperand]
        rfl

theorem topDerives_congr_blank (h : s'.blank = s.blank) : s'.TopDerives ↔ s.TopDerives := by
  rw [← topDerives_map blank_kind blank_child, h, topDerives_map blank_kind blank_child]

theorem topDerives_bare : s.bare.TopDerives ↔ s.TopDerives :=
  topDerives_map bare_kind bare_child

theorem listsColumns_bare : s.bare.ListsColumns ↔ s.ListsColumns := by
  simp [ListsColumns, preorder_bare]

/-! ### Changing values -/

theorem mapNamesIn_eq_map (f : String → Option String) (slots : List (Option Subtree)) :
    mapNamesIn f slots = slots.map (Option.map (mapNames f)) := by
  induction slots with
  | nil => rfl
  | cons child rest ih => cases child <;> simp [mapNamesIn, ih]

theorem mapNames_slotValue (f : String → Option String) (s : Subtree) (slot : Nat) :
    (s.mapNames f).slotValue slot = renamed f (s.slotValue slot) := by
  obtain ⟨id, kind, value, slots⟩ := s
  rw [mapNames, slotValue, slotValue, child, child, Subtree.slots, Subtree.slots,
    mapNamesIn_eq_map, List.getElem?_map]
  rcases slots[slot]? with _ | _ | ⟨_, _, _, _⟩ <;> rfl

mutual
theorem preorder_mapNames (f : String → Option String) : ∀ s : Subtree,
    (s.mapNames f).preorder = s.preorder.map (mapNames f)
  | .node _ _ _ slots => by
    rw [mapNames, preorder, preorder, preorderAll_mapNamesIn f slots]
    rfl
theorem preorderAll_mapNamesIn (f : String → Option String) : ∀ slots,
    preorderAll (mapNamesIn f slots) = (preorderAll slots).map (mapNames f)
  | [] => rfl
  | none :: rest => preorderAll_mapNamesIn f rest
  | some s :: rest => by
    rw [mapNamesIn, preorderAll, preorderAll, preorder_mapNames f s, preorderAll_mapNamesIn f rest,
      List.map_append]
end

/-- Names are no lists. -/
theorem renamed_eq_columns {f : String → Option String} {value : Option Value}
    {entries : List String} :
    renamed f value = some (.columns entries) ↔ value = some (.columns entries) := by
  rcases value with _ | v
  · rfl
  · cases v with
    | name text => cases htext : f text <;> simp [renamed, Value.mapName?, htext]
    | columns | rename | derived => rfl

theorem listsColumns_mapNames (f : String → Option String) :
    (s.mapNames f).ListsColumns ↔ s.ListsColumns := by
  have hkind : ∀ n : Subtree, (n.mapNames f).kind = n.kind := fun ⟨_, _, _, _⟩ => rfl
  simp [ListsColumns, preorder_mapNames, mapNames_slotValue, renamed_eq_columns, hkind]

/-- The value of a leaf says nothing about what stands on it. -/
theorem listsColumns_setValue (v : Value) : (s.setValue v).ListsColumns ↔ s.ListsColumns := by
  rw [listsColumns_iff, listsColumns_iff]
  rfl

/-- What is put into slot 0 has to list columns itself, and for a projection it has to hold some. -/
theorem ListsColumns.setChild {c' : Subtree} (h : s.ListsColumns) (hchild : s.child 0 = some c)
    (hc' : c'.ListsColumns) (hvalue : s.kind = .projection → c'.value ≠ some (.columns [])) :
    (s.setChild 0 (some c')).ListsColumns := by
  obtain ⟨f, rfl, hslot⟩ := exists_frame hchild
  rw [← hslot, setChild_fill]
  refine listsColumns_iff.mpr ⟨fun hkind => ?_, fun child hmem => ?_⟩
  · rw [← hslot, f.slotValue_fill]
    exact hvalue hkind
  · have hbeside := (listsColumns_iff.mp h).2 child
    simp only [Frame.fill_slots, List.mem_append, List.mem_cons, Option.some.injEq]
      at hmem hbeside
    rcases hmem with hmem | rfl | hmem
    · exact hbeside (.inl hmem)
    · exact hc'
    · exact hbeside (.inr (.inr hmem))

theorem ListsColumns.child {slot : Nat} (h : s.ListsColumns) (hchild : s.child slot = some c) :
    c.ListsColumns :=
  (listsColumns_iff.mp h).2 c (List.mem_of_getElem? (Option.join_eq_some_iff.mp hchild))

/-- Another parameter will do as long as it is not a list of nothing. -/
theorem ListsColumns.setParameter {v : Value} (h : s.ListsColumns)
    (hv : s.kind = .projection → v ≠ .columns []) : (s.setParameter v).ListsColumns := by
  rw [Subtree.setParameter]
  split
  · exact h
  case h_2 leaf hleaf =>
    refine h.setChild hleaf ((listsColumns_setValue v).mpr (h.child hleaf)) fun hkind heq => ?_
    exact hv hkind (Option.some.inj heq)

/-- Names that are changed in a predicate leave all lists as they are. -/
theorem ListsColumns.setPredicate {top : Subtree} (f : String → Option String) (h : s.ListsColumns)
    (htop : s.child 0 = some top) : (s.setChild 0 (some (top.mapNames f))).ListsColumns := by
  refine h.setChild htop ((listsColumns_mapNames f).mpr (h.child htop)) fun hkind heq => ?_
  have hvalue : (top.mapNames f).value = renamed f top.value := by
    cases top
    rfl
  rw [hvalue, renamed_eq_columns] at heq
  refine (listsColumns_iff.mp h).1 hkind ?_
  rw [slotValue, htop]
  exact heq

/-- The entries of a projection that lists columns. -/
theorem ListsColumns.columns_ne_nil {entries : List String} (h : s.ListsColumns)
    (hkind : s.kind = .projection) (hentries : s.columns = .ok entries) : entries ≠ [] := by
  rintro rfl
  exact (listsColumns_iff.mp h).1 hkind (slotValue_of_columns hentries)

end Subtree

namespace Transfer

variable {fresh : NodeId} {node parent node' parent' : Subtree} {slot : Nat} {rule : Transfer}

/-- Where an operator rises, projections still list columns. What a derived column leaves behind is
another matter. -/
theorem listsColumns_of_rises (h : rule.cross fresh node parent slot = .ok (.rises node' parent'))
    (hkinds : between? node.kind parent.kind = some rule) (hrule : rule ≠ .deriveOverProjection)
    (hnode : node.ListsColumns) (hparent : parent.ListsColumns) :
    node'.ListsColumns ∧ parent'.ListsColumns := by
  have hkinds := mem_table_of_between? hkinds
  simp only [table, List.mem_cons, Prod.mk.injEq, List.not_mem_nil, or_false] at hkinds
  cases rule with
  | pass =>
      cases h
      exact ⟨hnode, hparent⟩
  | qualifyRename =>
      obtain ⟨asName, _, h⟩ := exists_of_bind_eq_ok h
      obtain ⟨pair, _, h⟩ := exists_of_bind_eq_ok h
      cases h
      exact ⟨hnode.setParameter (by simp), hparent⟩
  | qualifyProjection =>
      obtain ⟨hn, _⟩ : node.kind = .projection ∧ parent.kind = .renameAll := by simpa using hkinds
      obtain ⟨asName, _, h⟩ := exists_of_bind_eq_ok h
      obtain ⟨entries, hentries, h⟩ := exists_of_bind_eq_ok h
      cases h
      have hne := hnode.columns_ne_nil hn hentries
      exact ⟨hnode.setParameter fun _ => by simpa using hne, hparent⟩
  | qualifyCondition =>
      obtain ⟨asName, _, h⟩ := exists_of_bind_eq_ok h
      obtain ⟨top, htop, h⟩ := exists_of_bind_eq_ok h
      cases h
      exact ⟨hnode.setPredicate _ (Subtree.child_of_predicate htop), hparent⟩
  | renameInCondition =>
      obtain ⟨pair, _, h⟩ := exists_of_bind_eq_ok h
      obtain ⟨top, htop, h⟩ := exists_of_bind_eq_ok h
      cases h
      exact ⟨hnode, hparent.setPredicate _ (Subtree.child_of_predicate htop)⟩
  | renameInProjection =>
      obtain ⟨_, hp⟩ : node.kind = .rename ∧ parent.kind = .projection := by simpa using hkinds
      obtain ⟨pair, _, h⟩ := exists_of_bind_eq_ok h
      obtain ⟨entries, hentries, h⟩ := exists_of_bind_eq_ok h
      split at h
      · cases h
      case h_2 folded hfolded =>
        cases h
        have hne := Columns.foldRename?_ne_nil hfolded (hparent.columns_ne_nil hp hentries)
        exact ⟨hnode, hparent.setParameter fun _ => by simpa using hne⟩
  | renameInSource =>
      obtain ⟨pair, _, h⟩ := exists_of_bind_eq_ok h
      obtain ⟨column, _, h⟩ := exists_of_bind_eq_ok h
      cases h
      exact ⟨hnode, hparent.setParameter (by simp)⟩
  | deriveOverProjection => exact absurd rfl hrule
  | deriveOverCondition =>
      obtain ⟨column, _, h⟩ := exists_of_bind_eq_ok h
      obtain ⟨top, _, h⟩ := exists_of_bind_eq_ok h
      split at h <;> cases h
      exact ⟨hnode, hparent⟩
  | widenProjection =>
      have hn : node.kind = .projection := by
        simp only [reduceCtorEq, and_false, false_or, or_false, and_true] at hkinds
        rcases hkinds with ⟨hn, _⟩ | ⟨hn, _⟩ <;> exact hn
      obtain ⟨entries, hentries, h⟩ := exists_of_bind_eq_ok h
      cases h
      have hne := hnode.columns_ne_nil hn hentries
      exact ⟨hnode.setParameter (by simp [hne]), hparent⟩
  | mergeProjections =>
      obtain ⟨inner, _, h⟩ := exists_of_bind_eq_ok h
      obtain ⟨outer, _, h⟩ := exists_of_bind_eq_ok h
      cases h
  | conjoinConditions =>
      obtain ⟨outer, _, h⟩ := exists_of_bind_eq_ok h
      obtain ⟨inner, _, h⟩ := exists_of_bind_eq_ok h
      cases h

/-- A parent that absorbs an operator still lists columns, unless both were projections. -/
theorem listsColumns_of_absorbed (h : rule.cross fresh node parent slot = .ok (.absorbed parent'))
    (hkinds : between? node.kind parent.kind = some rule) (hrule : rule ≠ .mergeProjections)
    (hnode : node.ListsColumns) (hparent : parent.ListsColumns) : parent'.ListsColumns := by
  have hkinds := mem_table_of_between? hkinds
  simp only [table, List.mem_cons, Prod.mk.injEq, List.not_mem_nil, or_false] at hkinds
  cases rule with
  | renameInProjection =>
      obtain ⟨pair, _, h⟩ := exists_of_bind_eq_ok h
      obtain ⟨entries, _, h⟩ := exists_of_bind_eq_ok h
      split at h <;> cases h
      exact hparent
  | deriveOverProjection =>
      obtain ⟨_, hp⟩ : node.kind = .extraColumn ∧ parent.kind = .projection := by
        simpa using hkinds
      obtain ⟨column, _, h⟩ := exists_of_bind_eq_ok h
      obtain ⟨entries, hentries, h⟩ := exists_of_bind_eq_ok h
      dsimp only at h
      cases hselect : Columns.selectDerived entries column.1 <;> rw [hselect] at h <;> cases h
      have hne := hparent.columns_ne_nil hp hentries
      refine hparent.setParameter fun _ => ?_
      rw [Columns.withoutDerived_of_not_selectDerived hselect]
      simpa using hne
  | mergeProjections => exact absurd rfl hrule
  | conjoinConditions =>
      obtain ⟨outer, houter, h⟩ := exists_of_bind_eq_ok h
      obtain ⟨inner, hinner, h⟩ := exists_of_bind_eq_ok h
      cases h
      have houter := Subtree.child_of_predicate houter
      have hinner := Subtree.child_of_predicate hinner
      refine hparent.setChild houter (Subtree.listsColumns_iff.mpr ⟨?_, ?_⟩) ?_
      · simp [Subtree.kind]
      · simpa [Subtree.slots] using ⟨hparent.child houter, hnode.child hinner⟩
      · simp [Subtree.value]
  -- In all other cases the operator rises.
  | pass => cases h
  | widenProjection =>
      obtain ⟨entries, _, h⟩ := exists_of_bind_eq_ok h
      cases h
  | qualifyRename | qualifyProjection | qualifyCondition | renameInCondition | renameInSource =>
      obtain ⟨_, _, h⟩ := exists_of_bind_eq_ok h
      obtain ⟨_, _, h⟩ := exists_of_bind_eq_ok h
      cases h
  | deriveOverCondition =>
      obtain ⟨column, _, h⟩ := exists_of_bind_eq_ok h
      obtain ⟨top, _, h⟩ := exists_of_bind_eq_ok h
      split at h <;> cases h

end Transfer

/-! ### Frames and paths -/

namespace Frame

variable {c : Contract} {f : Frame} {s : Subtree}

/-- A projection with its parameter in place lists columns whatever it stands on. -/
theorem listsColumns_fill (hslot : f.kind = .projection → f.slot ≠ 0) :
    (f.fill (some s)).ListsColumns ↔ (f.fill none).ListsColumns ∧ s.ListsColumns := by
  have hvalue : f.kind = .projection →
      (f.fill (some s)).slotValue 0 = (f.fill none).slotValue 0 := by
    intro hkind
    exact slotValue_fill_of_ne (some s) (hslot hkind)
  rw [Subtree.listsColumns_iff, @Subtree.listsColumns_iff (f.fill none)]
  simp only [fill_kind, fill_slots, List.mem_append, List.mem_cons, reduceCtorEq, false_or,
    Option.some.injEq]
  grind

/-- What has no value is no parameter. -/
theorem Takes.slot_ne_zero (h : f.Takes c s) (hvalue : s.value = none)
    (hkind : f.kind = .projection) : f.slot ≠ 0 := by
  intro hslot
  obtain ⟨v, hv, _⟩ := h (by rw [hkind]; rfl) hslot
  rw [hvalue] at hv
  cases hv

end Frame

/-- What is no constant may give way to what lists columns if it does. -/
theorem Path.listsColumns_fill_mono {c : Contract} {path : Path} {s s' : Subtree}
    (hreg : (path.fill s).Regular c) (hkind : s.kind ≠ .constant)
    (h : s.ListsColumns → s'.ListsColumns) :
    (path.fill s).ListsColumns → (path.fill s').ListsColumns := by
  induction path generalizing s s' with
  | nil => exact h
  | cons f above ih =>
      have hparent : (f.fill (some s)).Regular c := @Subtree.Regular.foot c _ above hreg
      obtain ⟨hf, htakes, hs⟩ := Frame.regular_fill.mp hparent
      have hslot := htakes.slot_ne_zero (hs.value_of_ne_constant hkind)
      refine ih hreg (Frame.kind_ne_constant hf.length_eq) ?_
      rw [Frame.listsColumns_fill hslot, Frame.listsColumns_fill hslot]
      exact fun ⟨hframe, hs⟩ => ⟨hframe, h hs⟩

/-- A derived column at the top does not depend on what hangs further down. -/
theorem Path.topDerives_fill_mono {path : Path} {s s' : Subtree}
    (h : s.TopDerives → s'.TopDerives) : (path.fill s).TopDerives → (path.fill s').TopDerives := by
  induction path generalizing s s' with
  | nil => exact h
  | cons f above ih =>
      refine ih fun hfill => ?_
      rw [Subtree.topDerives_iff] at hfill ⊢
      refine hfill.imp_right fun ⟨hkind, operand, hoperand, hbelow⟩ => ⟨hkind, ?_⟩
      by_cases hslot : f.slot = 1
      · have hchild : ∀ s, (f.fill (some s)).child 1 = some s := by
          intro s
          rw [← hslot, f.child_fill]
        rw [hchild] at hoperand ⊢
        cases hoperand
        exact ⟨s', rfl, h hbelow⟩
      · have hchild : (f.fill (some s')).child 1 = (f.fill (some s)).child 1 :=
          (f.child_fill_of_ne _ hslot).trans (f.child_fill_of_ne _ hslot).symm
        exact ⟨operand, hchild.trans hoperand, hbelow⟩

/-! ### Lifts -/

namespace Grammar

/-- What may stand in a stack above projections stands in the operand slot of a query, a rename or a
derived column. -/
theorem above_of_allows {parent node : Kind} {slot : Nat}
    (hnode : node = .projection ∨ node = .extraColumn ∨ node = .rename)
    (h : flatSelect.allows parent slot node = true) :
    slot = 1 ∧ (parent = .assign ∨ parent = .rename ∨ parent = .extraColumn) := by
  have hoperand : node.hasOperand = true := by
    rcases hnode with rfl | rfl | rfl <;> rfl
  obtain ⟨rfl, hparent⟩ := flatSelect_slot_of_allows hoperand h
  refine ⟨rfl, ?_⟩
  rcases hparent with hparent | hparent | hparent | rfl
  · exact .inl hparent
  · exact .inr (.inl hparent)
  · exact .inr (.inr hparent)
  · rcases hnode with rfl | rfl | rfl <;> exact absurd h (by decide)

theorem not_allows_assign (parent : Kind) (slot : Nat) :
    flatSelect.allows parent slot .assign = false := by
  rcases slot with _ | _ | slot
  · cases parent <;> decide
  · cases parent <;> decide
  · cases parent <;> rfl

end Grammar

/-- A derived column is at the top once it stands where a projection may stand. -/
theorem Path.Clear.topDerives_fill {roots : KindSet} {path : Path} {s : Subtree} {kind : Kind}
    (hclear : path.Clear .flatSelect roots)
    (hkind : kind = .projection ∨ kind = .extraColumn ∨ kind = .rename)
    (hexpected : (path.expected .flatSelect roots).contains kind = true) (h : s.TopDerives) :
    (path.fill s).TopDerives := by
  induction path generalizing s kind with
  | nil => exact h
  | cons f above ih =>
      obtain ⟨hf, _, habove⟩ := hclear
      obtain ⟨hslot, hparent⟩ := Grammar.above_of_allows hkind hexpected
      have hchild : (f.fill (some s)).child 1 = some s := by rw [← hslot, f.child_fill]
      rcases hparent with hparent | hparent | hparent
      · -- Nothing is above a query.
        cases above with
        | nil => exact .under (.inl hparent) hchild h
        | cons a above =>
            rw [hparent] at hf
            exact absurd (hf.symm.trans (Grammar.not_allows_assign a.kind a.slot)) (by decide)
      · exact ih habove (.inr (.inr hparent)) hf (.under (.inr hparent) hchild h)
      · exact ih habove (.inr (.inl hparent)) hf (.top hparent)

namespace Transfer

/-- Nothing crosses the target or a rename, and only a rename crosses a derived column. -/
theorem rename_of_between? {node parent : Kind} {rule : Transfer}
    (h : between? node parent = some rule) :
    parent ≠ .assign ∧ parent ≠ .rename ∧ (parent = .extraColumn → node = .rename) := by
  have hall : ∀ entry ∈ table, entry.2.1 ≠ .assign ∧ entry.2.1 ≠ .rename ∧
      (entry.2.1 = .extraColumn → entry.1 = .rename) := by decide
  exact hall _ (mem_table_of_between? h)

theorem kinds_of_deriveOverProjection {node parent : Kind}
    (h : between? node parent = some deriveOverProjection) :
    node = .extraColumn ∧ parent = .projection := by
  simpa [table] using mem_table_of_between? h

theorem kinds_of_mergeProjections {node parent : Kind}
    (h : between? node parent = some mergeProjections) :
    node = .projection ∧ parent = .projection := by
  simpa [table] using mem_table_of_between? h

end Transfer

namespace Subtree

variable {c : Contract} {g : Grammar} {fresh : NodeId} {d f : Frame} {above path : Path}
  {below node node' parent' whole : Subtree} {rule : Transfer} {outcome : Lift.Outcome}
  {crossed : Crossed} {roots : KindSet}

/-- All projections list columns, or a derived column is at the top. -/
def Shows (s : Subtree) : Prop :=
  s.ListsColumns ∨ s.TopDerives

namespace Meets

/-- Before an operator crosses its parent, both list columns. -/
theorem listsColumns_before (h : Meets c g fresh d f above below rule crossed)
    (hlists : (f.fill (some (d.fill (some below)))).ListsColumns) :
    (d.fill none).ListsColumns ∧ below.ListsColumns ∧ (f.fill (some below)).ListsColumns := by
  have hd : d.kind = .projection → d.slot ≠ 0 := fun _ => by rw [h.slot_eq]; decide
  have hvalue : (d.fill (some below)).value = none :=
    h.regular_operator.value_of_ne_constant (Kind.ne_constant_of_hasOperand h.hasOperand)
  obtain ⟨_, htakes, _⟩ := Frame.regular_fill.mp h.regular_before
  have hf := htakes.slot_ne_zero hvalue
  obtain ⟨hframe, hoperator⟩ := (Frame.listsColumns_fill hf).mp hlists
  obtain ⟨hnode, hbelow⟩ := (Frame.listsColumns_fill hd).mp hoperator
  exact ⟨hnode, hbelow, (Frame.listsColumns_fill hf).mpr ⟨hframe, hbelow⟩⟩

theorem listsColumns_rises (h : Meets c g fresh d f above below rule (.rises node' parent'))
    (hrule : rule ≠ .deriveOverProjection)
    (hlists : (Path.fill (f :: above) (d.fill (some below))).ListsColumns) :
    (hung node' parent' above).ListsColumns := by
  obtain ⟨hf, _, _⟩ := Frame.regular_fill.mp h.regular_before
  refine @Path.listsColumns_fill_mono c above (f.fill (some (d.fill (some below)))) _ h.regular
    (Frame.kind_ne_constant hf.length_eq) ?_ hlists
  intro hlists
  obtain ⟨hnode, hbelow, hparent⟩ := h.listsColumns_before hlists
  obtain ⟨hnode', hparent'⟩ :=
    Transfer.listsColumns_of_rises h.cross_eq h.rule_eq hrule hnode hparent
  obtain ⟨d', rfl, hd', _⟩ := h.exists_frame
  rw [← hd', setChild_fill]
  exact (Frame.listsColumns_fill fun _ => by rw [hd']; decide).mpr ⟨hnode', hparent'⟩

theorem listsColumns_absorbed (h : Meets c g fresh d f above below rule (.absorbed parent'))
    (hrule : rule ≠ .mergeProjections)
    (hlists : (Path.fill (f :: above) (d.fill (some below))).ListsColumns) :
    (Path.fill above parent').ListsColumns := by
  obtain ⟨_, _, hconstant⟩ := h.regular_absorbed
  refine @Path.listsColumns_fill_mono c above (f.fill (some (d.fill (some below)))) _ h.regular
    hconstant ?_ hlists
  intro hlists
  obtain ⟨hnode, _, hparent⟩ := h.listsColumns_before hlists
  exact Transfer.listsColumns_of_absorbed h.cross_eq h.rule_eq hrule hnode hparent

/-- A parent that is crossed is at the top of what it stands on only if it is a derived column. -/
theorem extraColumn_of_topDerives (h : Meets c g fresh d f above below rule crossed)
    (htop : (f.fill (some (d.fill (some below)))).TopDerives) :
    f.kind = .extraColumn ∧ d.kind = .rename := by
  obtain ⟨hassign, hrename, hcolumn⟩ := Transfer.rename_of_between? h.rule_eq
  rcases topDerives_iff.mp htop with hf | ⟨hf | hf, _⟩
  · exact ⟨hf, hcolumn hf⟩
  · exact absurd hf hassign
  · exact absurd hf hrename

theorem topDerives_rises (h : Meets c g fresh d f above below rule (.rises node' parent'))
    (htop : (Path.fill (f :: above) (d.fill (some below))).TopDerives) :
    (hung node' parent' above).TopDerives := by
  obtain ⟨hnode, hparent⟩ := h.reworded
  rw [topDerives_congr_blank (blank_hung_rises h.slot_eq hnode hparent above)]
  refine Path.topDerives_fill_mono (fun htop => ?_) htop
  obtain ⟨hf, hd⟩ := h.extraColumn_of_topDerives htop
  have hchild : (d.fill (some (f.fill (some below)))).child 1 = some (f.fill (some below)) := by
    rw [← h.slot_eq, d.child_fill]
  exact .under (.inr hd) hchild (.top hf)

theorem topDerives_absorbed (h : Meets c g fresh d f above below rule (.absorbed parent'))
    (htop : (Path.fill (f :: above) (d.fill (some below))).TopDerives) :
    (Path.fill above parent').TopDerives := by
  refine Path.topDerives_fill_mono (fun htop => ?_) htop
  obtain ⟨_, hkind, _⟩ := h.regular_absorbed
  exact .top (hkind.trans (h.extraColumn_of_topDerives htop).1)

/-- A derived column that leaves the list of a projection comes to be at the top. -/
theorem topDerives_derived (h : Meets c .flatSelect fresh d f above below rule
    (.rises node' parent')) (hclear : Path.Clear .flatSelect roots (f :: above))
    (hrule : rule = .deriveOverProjection) : (hung node' parent' above).TopDerives := by
  subst hrule
  obtain ⟨hd, hf⟩ := Transfer.kinds_of_deriveOverProjection h.rule_eq
  obtain ⟨hexpected, _, habove⟩ := hclear
  obtain ⟨d', rfl, hd', hkind', _⟩ := h.exists_frame
  rw [hung_fill_none hd']
  exact habove.topDerives_fill (.inl rfl) (hf ▸ hexpected) (.top (hkind'.trans hd))

theorem shows_rises (h : Meets c .flatSelect fresh d f above below rule (.rises node' parent'))
    (hclear : Path.Clear .flatSelect roots (f :: above))
    (hshows : (Path.fill (f :: above) (d.fill (some below))).Shows) :
    (hung node' parent' above).Shows := by
  rcases hshows with hlists | htop
  · by_cases hrule : rule = .deriveOverProjection
    · exact .inr (h.topDerives_derived hclear hrule)
    · exact .inl (h.listsColumns_rises hrule hlists)
  · exact .inr (h.topDerives_rises htop)

theorem shows_absorbed (h : Meets c g fresh d f above below rule (.absorbed parent'))
    (hshows : (Path.fill (f :: above) (d.fill (some below))).Shows) :
    (Path.fill above parent').Shows ∨ d.kind = .projection := by
  rcases hshows with hlists | htop
  · by_cases hrule : rule = .mergeProjections
    · subst hrule
      exact .inr (Transfer.kinds_of_mergeProjections h.rule_eq).1
    · exact .inl (.inl (h.listsColumns_absorbed hrule hlists))
  · exact .inl (.inr (h.topDerives_absorbed htop))

end Meets

/-- A derived column at the top stays there. -/
theorem Regular.topDerives_of_lift (hreg : (path.fill node).Regular c)
    (hlift : node.lift g fresh path = .ok (outcome, whole))
    (htop : (path.fill node).TopDerives) : whole.TopDerives := by
  have hkeeps : Keeps c g fresh node.kind path TopDerives TopDerives := by
    constructor
    case rises =>
      intro d f above below node' parent' rule _ _ hmeets hkept
      exact hmeets.topDerives_rises hkept
    case absorbs =>
      intro d f above below parent' rule _ _ hmeets hkept
      exact hmeets.topDerives_absorbed hkept
  exact hkeeps.whole_of_lift hlift hreg htop

/-- Under the grammar of flat selects, lifting the first deviation leaves columns in all lists or a
derived column at the top, unless a projection is absorbed. -/
theorem Regular.shows_of_lift (hreg : (path.fill node).Regular c)
    (hclear : path.Clear .flatSelect roots)
    (hlift : node.lift .flatSelect fresh path = .ok (outcome, whole))
    (hshows : (path.fill node).Shows) :
    outcome.Ends whole.Shows (whole.Shows ∨ node.kind = .projection) := by
  have hkeeps : Keeps c .flatSelect fresh node.kind path Shows
      fun s => s.Shows ∨ node.kind = .projection := by
    constructor
    case rises =>
      intro d f above below node' parent' rule _ hpath hmeets hkept
      exact hmeets.shows_rises (hclear.suffix hpath) hkept
    case absorbs =>
      intro d f above below parent' rule hkind _ hmeets hkept
      exact hkind ▸ hmeets.shows_absorbed hkept
  exact hkeeps.of_lift hlift hreg hshows

end Subtree

end FlatSelect
