import FlatSelect.Proofs.Links
import FlatSelect.Proofs.Places
import FlatSelect.Substitution

/-!
# Inlining as one rewriting

`Expr.inlined` puts the body of a view for every relation of its name, in one recursion from the top
down. Inlining a view into a tree finds the sites first and then replaces them one after the other,
each by a splice of its own. The two come to the same (`Tree.Holds.inline_sites`): a splice keeps
to the subtree at its site, and the sites that follow are in other subtrees.
-/

namespace FlatSelect

namespace Expr

/-- A branch of a join that reads a relation by its name, with `body` for the relation. -/
def inlinedBranch? (name : String) (body : Expr) : Expr → Option Expr
  | .node .constant value _ =>
    if value = some (.name name) then some (.renameAll name body) else none
  | .node .renameAll value children =>
    if children[1]?.bind Expr.value = some (.name name) then
      some (.node .renameAll value (children.set 1 body))
    else none
  | _ => none

mutual
/-- An expression with `body` for every relation called `name`. -/
def inlined (name : String) (body : Expr) : Expr → Expr
  | .node kind value children =>
    if kind = .input1 ∧ children[0]?.bind Expr.value = some (.name name) then body
    else .node kind value (inlinedAll name body kind children)
/-- The operands of a `parent`, with `body` for every relation called `name`. -/
def inlinedAll (name : String) (body : Expr) (parent : Kind) : List Expr → List Expr
  | [] => []
  | e :: es =>
    ((if parent = .input2 then inlinedBranch? name body e else none).getD (inlined name body e)) ::
      inlinedAll name body parent es
end

/-- An operand of a `parent`, with `body` for every relation called `name`. -/
def inlinedOperand (name : String) (body : Expr) (parent : Kind) (e : Expr) : Expr :=
  (if parent = .input2 then inlinedBranch? name body e else none).getD (inlined name body e)

end Expr

namespace Expr

variable {c : Contract} {name : String} {body : Expr}

@[simp] theorem bare_value (e : Expr) : e.bare.value = e.value := by
  cases e
  rfl

@[simp] theorem bare_kind (e : Expr) : e.bare.kind = e.kind := by
  cases e
  rfl

theorem inlined_of_constant {e : Expr} (h : e.kind = .constant) :
    (inlined name body e).value = e.value := by
  obtain ⟨kind, value, children⟩ := e
  obtain rfl : kind = .constant := h
  rw [inlined, if_neg (fun hc => nomatch hc.1)]
  rfl

theorem inlinedAll_eq_map (parent : Kind) (es : List Expr) :
    inlinedAll name body parent es = es.map (inlinedOperand name body parent) := by
  induction es with
  | nil => rfl
  | cons e es ih =>
      rw [inlinedAll, ih]
      rfl

theorem inlinedOperand_of_ne {parent : Kind} {e : Expr} (h : parent ≠ .input2) :
    inlinedOperand name body parent e = inlined name body e := by
  rw [inlinedOperand, if_neg h, Option.getD_none]

theorem regular_inlinedBranch {e e' : Expr} (hbody : body.bare.Regular c) (h : e.bare.Regular c)
    (hinlined : inlinedBranch? name body e = some e') : e'.bare.Regular c := by
  obtain ⟨kind, value, children⟩ := e
  cases kind
  case constant =>
    rw [inlinedBranch?] at hinlined
    split at hinlined
    · cases hinlined
      refine ⟨⟨by simp [Subtree.value, Subtree.kind], rfl, ?_⟩, ?_, hbody, trivial⟩
      · exact fun _ => ⟨_, rfl, c.fits_of_admits rfl⟩
      · exact ⟨⟨by simp [Subtree.value, Subtree.kind], rfl, fun hkeeps => nomatch hkeeps⟩, trivial⟩
    · cases hinlined
  case renameAll =>
    rw [inlinedBranch?] at hinlined
    split at hinlined
    · cases hinlined
      obtain ⟨⟨hvalue, hlength, hparameter⟩, hall⟩ := h
      match children, hlength, hparameter, hall with
      | [asName, relation], _, hparameter, hall =>
          exact ⟨⟨hvalue, rfl, hparameter⟩, hall.1, hbody, trivial⟩
    · cases hinlined
  all_goals cases hinlined

/-- A parameter stays as it is. -/
theorem parameter_inlinedAll {parent : Kind} {es : List Expr} {v : Value}
    (hkeeps : parent.hasParameter = true) (hall : Subtree.RegularAll c (bareAll es))
    (hv : es[0]?.bind Expr.value = some v) :
    (inlinedAll name body parent es)[0]?.bind Expr.value = some v := by
  cases es with
  | nil => cases hv
  | cons e es =>
      have hvalue : e.value = some v := hv
      have hkind : e.kind = .constant := by
        have hconstant := hall.1.proper.value_iff.mp
        rw [bare_value, bare_kind, hvalue] at hconstant
        exact hconstant rfl
      have hjoin : parent ≠ .input2 := by
        rintro rfl
        cases hkeeps
      rw [inlinedAll_eq_map, List.map_cons, inlinedOperand_of_ne hjoin]
      exact (inlined_of_constant hkind).trans hvalue

mutual
/-- Inlining something regular keeps an expression regular. -/
theorem regular_inlined (hbody : body.bare.Regular c) :
    ∀ {e : Expr}, e.bare.Regular c → (inlined name body e).bare.Regular c
  | .node kind value children, h => by
    rw [inlined]
    split
    · exact hbody
    · obtain ⟨⟨hvalue, hlength, hparameter⟩, hall⟩ := h
      refine ⟨⟨hvalue, ?_, ?_⟩, regularAll_inlinedAll hbody kind hall⟩
      · refine Eq.trans ?_ hlength
        change (bareAll _).length = (bareAll children).length
        rw [length_bareAll, length_bareAll, inlinedAll_eq_map, List.length_map]
      · intro hkeeps
        obtain ⟨v, hv, hfits⟩ := hparameter hkeeps
        have hchild := (slotValue_bare kind value children 0).symm.trans hv
        refine ⟨v, ?_, hfits⟩
        exact (slotValue_bare kind value _ 0).trans (parameter_inlinedAll hkeeps hall hchild)
theorem regularAll_inlinedAll (hbody : body.bare.Regular c) (parent : Kind) :
    ∀ {es : List Expr}, Subtree.RegularAll c (bareAll es) →
      Subtree.RegularAll c (bareAll (inlinedAll name body parent es))
  | [], _ => trivial
  | e :: es, h => by
    refine ⟨?_, regularAll_inlinedAll hbody parent h.2⟩
    have he : (inlined name body e).bare.Regular c := regular_inlined hbody h.1
    split
    · cases hbranch : inlinedBranch? name body e with
      | none => exact he
      | some e' => exact regular_inlinedBranch hbody h.1 hbranch
    · exact he
end

end Expr

namespace Subtree

variable {c : Contract} {s : Subtree} {name : String}

mutual
/-- What holds of a node if it holds of its children holds of every node. -/
theorem of_slots {motive : Subtree → Prop}
    (step : ∀ s : Subtree, (∀ child, some child ∈ s.slots → motive child) → motive s) :
    ∀ s, motive s
  | .node id kind value slots => step (.node id kind value slots) (of_slots_all step slots)
theorem of_slots_all {motive : Subtree → Prop}
    (step : ∀ s : Subtree, (∀ child, some child ∈ s.slots → motive child) → motive s) :
    ∀ (slots : List (Option Subtree)) (child : Subtree), some child ∈ slots → motive child
  | [], _, h => absurd h List.not_mem_nil
  | none :: rest, child, h =>
    of_slots_all step rest child ((List.mem_cons.mp h).resolve_left (by simp))
  | some s :: rest, child, h => by
    rcases List.mem_cons.mp h with heq | h
    · cases heq
      exact of_slots step s
    · exact of_slots_all step rest child h
end

@[simp] theorem value_toExpr (s : Subtree) : s.toExpr.value = s.value := by
  cases s
  rfl

/-- Where no slot is vacant, the operands of the expression are what stands in the slots. -/
theorem getElem?_toExprs {slots : List (Option Subtree)} (h : fullAll slots = true) (slot : Nat) :
    (toExprs slots)[slot]? = slots[slot]?.join.map toExpr := by
  induction slots generalizing slot with
  | nil => rfl
  | cons child rest ih =>
      cases child with
      | none => cases h
      | some s =>
          rw [fullAll, Bool.and_eq_true] at h
          cases slot with
          | zero => rfl
          | succ slot => exact ih h.2 slot

theorem value_child_toExpr {slots : List (Option Subtree)} (h : fullAll slots = true) (id : NodeId)
    (kind : Kind) (value : Option Value) (slot : Nat) :
    (toExprs slots)[slot]?.bind Expr.value =
      (Subtree.node id kind value slots).slotValue slot := by
  rw [getElem?_toExprs h]
  change _ = slots[slot]?.join.bind Subtree.value
  cases slots[slot]?.join with
  | none => rfl
  | some child => exact child.value_toExpr

/-- The sites in a subtree. -/
def sites (name : String) (s : Subtree) : List Site :=
  s.preorder.flatMap (sitesAt name)

/-- The sites in several slots. -/
def sitesIn (name : String) (slots : List (Option Subtree)) : List Site :=
  (preorderAll slots).flatMap (sitesAt name)

theorem sites_eq (name : String) (s : Subtree) :
    s.sites name = s.sitesAt name ++ sitesIn name s.slots := by
  cases s
  rfl

@[simp] theorem sitesIn_nil (name : String) : sitesIn name [] = [] := rfl

@[simp] theorem sitesIn_some (name : String) (s : Subtree) (rest : List (Option Subtree)) :
    sitesIn name (some s :: rest) = s.sites name ++ sitesIn name rest := by
  rw [sitesIn, preorderAll, List.flatMap_append]
  rfl

theorem Regular.sites_of_constant (h : s.Regular c) (hkind : s.kind = .constant) :
    s.sites name = [] := by
  rw [sites_eq, h.slots_of_constant hkind, sitesAt, hkind]
  rfl

/-- Of a child that has a value nothing is left when it is dead but nodes at rest. -/
theorem Regular.resting_of_constant (h : s.Regular c) (hkind : s.kind = .constant) :
    (s.records none).bury.Resting :=
  resting_bury (by rw [h.slots_of_constant hkind]; rfl)

theorem Regular.constant_of_value {v : Value} (h : s.Regular c) (hvalue : s.value = some v) :
    s.kind = .constant :=
  h.proper.value_iff.mp (by rw [hvalue]; rfl)

/-- Below a stored relation of the name there is no other site, and nothing that can be lifted. -/
theorem Regular.sites_of_reads (h : s.Regular c) (hkind : s.kind = .input1)
    (hname : s.slotValue 0 = some (.name name)) :
    s.sites name = [.relation s.id] ∧ (s.records none).bury.Resting := by
  obtain ⟨id, kind, value, slots⟩ := s
  obtain rfl : kind = .input1 := hkind
  obtain ⟨⟨_, hlength, _⟩, hall⟩ := h
  match slots, hlength, hall, hname with
  | [some leaf], _, hall, hname =>
      have hleaf : leaf.kind = .constant := hall.1.constant_of_value hname
      have hat : (Subtree.node id .input1 value [some leaf]).sitesAt name = [.relation id] :=
        if_pos hname
      constructor
      · rw [sites_eq, hat]
        change _ ++ sitesIn name [some leaf] = _
        simp [hall.1.sites_of_constant hleaf, Subtree.id]
      · apply resting_bury
        exact congrArg (· + 0) (hall.1.count_of_constant hleaf)

theorem sitesAt_eq_nil (hjoin : s.kind ≠ .input2)
    (hreads : ¬ (s.kind = .input1 ∧ s.slotValue 0 = some (.name name))) :
    s.sitesAt name = [] := by
  rw [sitesAt]
  split
  case h_1 hkind => exact if_neg fun hname => hreads ⟨hkind, hname⟩
  case h_2 hkind => exact absurd hkind hjoin
  case h_3 => rfl

theorem Regular.exists_leaf (h : s.Regular c) (hkind : s.kind = .constant) :
    ∃ id v, s = .node id .constant (some v) [] := by
  have hslots := h.slots_of_constant hkind
  obtain ⟨v, hv⟩ := Option.isSome_iff_exists.mp (h.proper.value_iff.mpr hkind)
  obtain ⟨id, kind, value, slots⟩ := s
  obtain rfl : kind = .constant := hkind
  obtain rfl : value = some v := hv
  obtain rfl : slots = [] := hslots
  exact ⟨id, v, rfl⟩

/-- A branch of a join that reads a relation by its name is the name, or an alias over the name. -/
theorem Regular.branch_cases (h : s.Regular c) (name : String) :
    (s.branchSite? name = none ∧ Expr.branchReading? name s.toExpr = none ∧
      ∀ body, Expr.inlinedBranch? name body s.toExpr = none) ∨
    (∃ id, s = .node id .constant (some (.name name)) []) ∨
    ∃ id first v second, s = .node id .renameAll none
      [some (.node first .constant (some v) []),
        some (.node second .constant (some (.name name)) [])] := by
  by_cases hconstant : s.kind = .constant
  · obtain ⟨id, v, rfl⟩ := h.exists_leaf hconstant
    by_cases hv : v = .name name
    · subst hv
      exact .inr (.inl ⟨id, rfl⟩)
    · have hvalue : ¬ some v = some (.name name) := fun heq => hv (Option.some.inj heq)
      exact .inl ⟨if_neg hvalue, if_neg hvalue, fun _ => if_neg hvalue⟩
  · by_cases hbranch : s.kind = .renameAll
    · have hnone := h.value_of_ne_constant hconstant
      obtain ⟨asName, relation, hslots, hasName, hrelation, hparameter⟩ :=
        h.exists_slots (by rw [hbranch]; rfl)
      obtain ⟨id, kind, value, slots⟩ := s
      obtain rfl : kind = .renameAll := hbranch
      obtain rfl : value = none := hnone
      obtain rfl : slots = [some asName, some relation] := hslots
      obtain ⟨first, v, rfl⟩ := hasName.exists_leaf (hparameter rfl)
      by_cases hvalue : relation.value = some (.name name)
      · obtain ⟨second, read, rfl⟩ := hrelation.exists_leaf (hrelation.constant_of_value hvalue)
        obtain rfl : read = .name name := Option.some.inj hvalue
        exact .inr (.inr ⟨id, first, v, second, rfl⟩)
      · have hexpr : ¬ relation.toExpr.value = some (.name name) := by rwa [value_toExpr]
        exact .inl ⟨if_neg hvalue, if_neg hexpr, fun _ => if_neg hexpr⟩
    · refine .inl ?_
      obtain ⟨id, kind, value, slots⟩ := s
      cases kind
      case constant => exact absurd rfl hconstant
      case renameAll => exact absurd rfl hbranch
      all_goals exact ⟨rfl, rfl, fun _ => rfl⟩

/-- An old subtree has become an expression, and off some ways all nodes are where they were. -/
structure Becomes (old : Subtree) (ways : List (List Nat)) (e : Expr) (new : Subtree) : Prop where
  full : new.full = true
  toExpr_eq : new.toExpr = e
  agrees : old.AgreesOff ways new

end Subtree

namespace Tree

variable {t : Tree} {m graves : Records} {s : Subtree} {path : Path}

/-- A copy of a subtree without vacant slots stands nowhere yet. -/
theorem Stores.graft {body : Subtree} (h : t.Stores m) (hfull : body.full = true) :
    ∃ copy : Subtree, copy.toExpr = body.toExpr ∧ copy.full = true ∧
      (t.graft body).1 = copy.id ∧ (t.graft body).2.root = t.root ∧
      (t.graft body).2.Stores (copy.records none + m) := by
  rw [graft_eq_plant t hfull]
  obtain ⟨copy, hexpr, hcopy, hid, hstores⟩ := Stores.plant body.toExpr h
  exact ⟨copy, hexpr, hcopy, hid, root_plant t _, hstores⟩

/-- A tree holds a subtree, and another one stands nowhere. -/
structure Offers (t : Tree) (whole new : Subtree) (graves : Records) : Prop where
  stores : t.Stores (new.records none + (whole.records none + graves))
  dead : ∀ e ∈ graves, e.2.live = false
  root_eq : t.root = whole.id

theorem Holds.graft {body : Subtree} (h : t.Holds s graves) (hfull : body.full = true) :
    ∃ copy : Subtree, copy.toExpr = body.toExpr ∧ copy.full = true ∧
      (t.graft body).1 = copy.id ∧ (t.graft body).2.Offers s copy graves := by
  obtain ⟨copy, hexpr, hcopy, hid, hroot, hstores⟩ := h.stores.graft hfull
  exact ⟨copy, hexpr, hcopy, hid, hstores, h.dead, hroot.trans h.root_eq⟩

/-- A subtree takes the place of another one, at the root or below it. -/
theorem Offers.replaceNode {new : Subtree} (h : t.Offers (path.fill s) new graves) :
    ((t.replaceNode s.id new.id).removeSubtree s.id).Holds (path.fill new)
      ((s.records none).bury + graves) := by
  obtain ⟨hstores, hdead, hroot⟩ := h
  have hfoot : t.Stores (s.records path.place? + (new.records none +
      (path.records s.id + graves))) :=
    hstores.congr (by rw [path.records_fill]; abel)
  have hplace := hfoot.place_eq
  cases path with
  | nil =>
      have hdetach : t.detach new.id = t := detach_of_place_none hstores.place_eq
      have hrun : t.replaceNode s.id new.id = { t with root := new.id } := by
        have hroot : t.root = s.id := hroot
        simp only [Tree.replaceNode, hplace, Path.place?_nil, hdetach, hroot, if_true]
      have hstores' : Stores { t with root := new.id } (new.records none +
          (s.records none + graves)) :=
        ⟨hstores.nodup, hstores.node_eq, hstores.mem_keys⟩
      rw [hrun]
      exact holds_of_removeSubtree (hstores'.congr (by rw [Path.fill_nil]; abel)) hdead rfl
  | cons f above =>
      have hrun : t.replaceNode s.id new.id = t.setChild f.place new.id := by
        simp only [Tree.replaceNode, hplace, Path.place?_cons]
      have hset := (hstores.congr (show _ = (f.fill (some s)).records (Path.place? above) +
        (new.records none + (Path.records above f.id + graves)) by
          rw [Path.fill_cons, Path.records_fill, Frame.fill_id]; abel)).setChild
      rw [hrun]
      refine holds_of_removeSubtree (hset.congr ?_) hdead ?_
      · rw [Path.fill_cons, Path.records_fill, Frame.fill_id]
        simp only [Subtree.loose]
        abel
      · rw [root_setChild, hroot]
        exact Path.id_fill_congr above rfl

/-! ### Splices -/

variable {body : Subtree} {name : String}

/-- A stored relation gives way to the body. -/
theorem Holds.inlineAt_relation (h : t.Holds (path.fill s) graves) (hfull : body.full = true) :
    ∃ copy : Subtree, copy.toExpr = body.toExpr ∧ copy.full = true ∧
      (t.inlineAt name body (.relation s.id)).Holds (path.fill copy)
        ((s.records none).bury + graves) := by
  obtain ⟨copy, hexpr, hcopy, hid, hoffers⟩ := h.graft hfull
  have hrun : t.inlineAt name body (.relation s.id) =
      ((t.graft body).2.replaceNode s.id (t.graft body).1).removeSubtree s.id := rfl
  rw [hrun, hid]
  exact ⟨copy, hexpr, hcopy, hoffers.replaceNode⟩

/-- A branch with an alias gets the body for its relation. -/
theorem Holds.inlineAt_aliasedBranch {d : Frame} {old : Subtree} (hd : d.slot = 1)
    (h : t.Holds (path.fill (d.fill (some old))) graves) (hfull : body.full = true) :
    ∃ copy : Subtree, copy.toExpr = body.toExpr ∧ copy.full = true ∧
      (t.inlineAt name body (.aliasedBranch d.id)).Holds (path.fill (d.fill (some copy)))
        ((old.records none).bury + graves) := by
  obtain ⟨copy, hexpr, hcopy, hid, hstores, hdead, hroot⟩ := h.graft hfull
  have hplace : (⟨d.id, 1⟩ : Place) = d.place := by rw [Frame.place, hd]
  obtain ⟨htake, hout⟩ := (hstores.congr (show _ = (d.fill (some old)).records path.place? +
    (copy.records none + (path.records d.id + graves)) by
      rw [path.records_fill, Frame.fill_id]; abel)).takeChild
  have hremoved := (hout.congr (show _ = old.records none + ((d.fill none).records path.place? +
    (copy.records none + (path.records d.id + graves))) by abel)).removeSubtree
  have hset := (hremoved.congr (show _ = (d.fill none).records path.place? + (copy.records none +
    (path.records d.id + ((old.records none).bury + graves))) by abel)).setChild
  have hrun : t.inlineAt name body (.aliasedBranch d.id) =
      (((t.graft body).2.takeChild d.place).2.removeSubtree old.id).setChild d.place copy.id := by
    simp only [Tree.inlineAt, hplace, htake, Option.elim_some, hid]
  rw [hrun]
  refine ⟨copy, hexpr, hcopy, hset.congr ?_, Records.dead_bury_add hdead, ?_⟩
  · rw [path.records_fill, Frame.fill_id]
    simp only [Subtree.loose]
    abel
  · rw [root_setChild, root_removeSubtree, root_takeChild, hroot]
    exact path.id_fill_congr rfl

/-- A branch that is a name becomes a branch with that name for its alias. -/
theorem Holds.inlineAt_bareBranch (h : t.Holds (path.fill s) graves) (hfull : body.full = true) :
    ∃ branch : Subtree, branch.toExpr = .renameAll name body.toExpr ∧ branch.full = true ∧
      (t.inlineAt name body (.bareBranch s.id)).Holds (path.fill branch)
        ((s.records none).bury + graves) := by
  obtain ⟨copy, hexpr, hcopy, hid, hstores, hdead, hroot⟩ := h.graft hfull
  let grafted := (t.graft body).2
  let asName := Subtree.node grafted.nodes.size .constant (some (.name name)) []
  let named := (grafted.push .constant (some (.name name)) []).2
  let branch := Subtree.node named.nodes.size .renameAll none [some asName, some copy]
  have hnamed : named.Stores (asName.records none + (copy.records none +
      ((path.fill s).records none + graves))) :=
    @Stores.push _ _ _ _ [] (hstores.congr (zero_add _).symm)
  have hbranch : (named.push .renameAll none [some asName.id, some copy.id]).2.Stores
      (branch.records none + ((path.fill s).records none + graves)) :=
    @Stores.push _ _ _ _ [some asName, some copy] (hnamed.congr (by
      simp only [Subtree.loose]; abel))
  have hrun : t.inlineAt name body (.bareBranch s.id) =
      ((named.push .renameAll none [some asName.id, some copy.id]).2.replaceNode s.id
        branch.id).removeSubtree s.id := by
    rw [← hid]
    rfl
  have hoffers : (named.push .renameAll none [some asName.id, some copy.id]).2.Offers
      (path.fill s) branch graves := by
    refine ⟨hbranch, hdead, ?_⟩
    rw [root_push, root_push, hroot]
  refine ⟨branch, ?_, ?_, hrun ▸ hoffers.replaceNode⟩
  · rw [← hexpr]
    rfl
  · simp [branch, asName, Subtree.full, Subtree.fullAll, hcopy]

/-! ### Site after site -/

/-- Replacing some sites makes of what stands at the foot of a path something that is as it is
wanted. -/
def Inlines (name : String) (body : Subtree) (sites : List Site) (wanted : Subtree → Prop)
    (t : Tree) (path : Path) (graves : Records) : Prop :=
  ∃ s gone, (sites.foldl (inlineAt name body) t).Holds (path.fill s) (gone + graves) ∧
    gone.Resting ∧ wanted s

variable {c : Contract} {branch : Subtree} {wanted : Subtree → Prop}

theorem Holds.inlines {site : Site} {old new : Subtree}
    (h : (t.inlineAt name body site).Holds (path.fill new) ((old.records none).bury + graves))
    (hold : (old.records none).bury.Resting) (hnew : wanted new) :
    Inlines name body [site] wanted t path graves :=
  ⟨new, _, h, hold, hnew⟩

theorem Holds.inlines_nil (h : t.Holds (path.fill s) graves) (hs : wanted s) :
    Inlines name body [] wanted t path graves :=
  ⟨s, 0, h.congr (zero_add _).symm, Records.resting_zero, hs⟩

/-- A branch is replaced as `Expr.inlinedBranch?` has it, and then there is no site below it. Or
it is left alone. -/
theorem Holds.inline_branch (hbody : body.full = true) (hreg : branch.Regular c)
    (h : t.Holds (path.fill branch) graves) :
    (branch.branchSite? name = none ∧ Expr.branchReading? name branch.toExpr = none ∧
      Expr.inlinedBranch? name body.toExpr branch.toExpr = none) ∨
    ∃ way e, Expr.branchReading? name branch.toExpr = some way ∧
      Expr.inlinedBranch? name body.toExpr branch.toExpr = some e ∧ branch.sites name = [] ∧
      Inlines name body (branch.branchSite? name).toList (branch.Becomes [way] e) t path
        graves := by
  rcases hreg.branch_cases name with
    ⟨hsite, hway, hexpr⟩ | ⟨id, rfl⟩ | ⟨id, first, v, second, rfl⟩
  · exact .inl ⟨hsite, hway, hexpr body.toExpr⟩
  · obtain ⟨s, hexpr, hs, hholds⟩ := @inlineAt_bareBranch _ _ _ _ body name h hbody
    refine .inr ⟨_, _, if_pos rfl, if_pos rfl, rfl, ?_⟩
    have hsite : (Subtree.node id .constant (some (.name name)) []).branchSite? name =
        some (.bareBranch id) := if_pos rfl
    rw [hsite]
    exact hholds.inlines (hreg.resting_of_constant rfl) ⟨hs, hexpr, Subtree.agreesOff_top _ s⟩
  · let asName : Subtree := .node first .constant (some v) []
    let relation : Subtree := .node second .constant (some (.name name)) []
    obtain ⟨copy, hcopy, hs, hholds⟩ :=
      @inlineAt_aliasedBranch t graves path body name ⟨id, .renameAll, none, [some asName], []⟩
        relation rfl h hbody
    refine .inr ⟨_, _, if_pos rfl, if_pos rfl, rfl, ?_⟩
    have hsite : (Subtree.node id .renameAll none [some asName, some relation]).branchSite? name =
        some (.aliasedBranch id) := if_pos rfl
    rw [hsite]
    refine hholds.inlines (Subtree.resting_bury rfl) ⟨?_, ?_, ?_⟩
    · simp [Frame.fill, Subtree.full, Subtree.fullAll, hs, asName]
    · rw [← hcopy]
      rfl
    · exact ((Subtree.AgreesOff.refl [] asName).cons
        ((Subtree.agreesOff_top relation copy).cons (Subtree.slotsAgreeOff_nil [] 2))).node

/-- Below a node that is not a join, the slots are gone through from left to right. -/
theorem Holds.inline_slots {id : NodeId} {kind : Kind} {value : Option Value}
    {slots : List (Option Subtree)} (hkind : kind ≠ .input2) (hreg : Subtree.RegularAll c slots)
    (ih : ∀ child, some child ∈ slots → ∀ (t : Tree) (path : Path) (graves : Records),
      t.Holds (path.fill child) graves → Inlines name body (child.sites name)
        (child.Becomes (Expr.readings name child.toExpr)
          (Expr.inlined name body.toExpr child.toExpr)) t path graves)
    (left : List (Option Subtree))
    (h : t.Holds (path.fill (.node id kind value (left ++ slots))) graves) :
    ∃ slots' gone, ((Subtree.sitesIn name slots).foldl (inlineAt name body) t).Holds
        (path.fill (.node id kind value (left ++ slots'))) (gone + graves) ∧ gone.Resting ∧
      Subtree.fullAll slots' = true ∧ Subtree.toExprs slots' =
        Expr.inlinedAll name body.toExpr kind (Subtree.toExprs slots) ∧
      Subtree.SlotsAgreeOff (Expr.readingsFrom name kind left.length (Subtree.toExprs slots))
        left.length slots slots' := by
  induction slots generalizing t left graves with
  | nil =>
      exact ⟨[], 0, h.congr (zero_add _).symm, Records.resting_zero, rfl, rfl,
        Subtree.slotsAgreeOff_nil _ _⟩
  | cons child rest ihrest =>
      cases child with
      | none => exact hreg.elim
      | some s =>
          obtain ⟨s', gone, hs, hgone, hfull, hexpr, hagrees⟩ :=
            ih s List.mem_cons_self t (⟨id, kind, value, left, rest⟩ :: path) graves h
          have hnext : ((s.sites name).foldl (inlineAt name body) t).Holds
              (path.fill (.node id kind value ((left ++ [some s']) ++ rest))) (gone + graves) := by
            rw [List.append_assoc]
            exact hs
          obtain ⟨rest', gone', hrest, hgone', hfulls, hexprs, hagreesRest⟩ :=
            ihrest hreg.2 (fun child hchild => ih child (List.mem_cons_of_mem _ hchild)) _ hnext
          rw [List.length_append] at hagreesRest
          refine ⟨some s' :: rest', gone' + gone, ?_, hgone'.add hgone, ?_, ?_, ?_⟩
          · rw [Subtree.sitesIn_some, List.foldl_append]
            rw [List.append_assoc] at hrest
            exact hrest.congr (add_assoc _ _ _).symm
          · rw [Subtree.fullAll, hfull, hfulls]
            rfl
          · rw [Subtree.toExprs, hexpr, hexprs, Subtree.toExprs, Expr.inlinedAll, if_neg hkind]
            rfl
          · rw [Subtree.toExprs, Expr.readingsFrom, if_neg hkind]
            exact hagrees.cons hagreesRest

/-- Once the site that a branch is has been replaced, the sites below it can be, whatever happens
elsewhere in between. -/
theorem Holds.inline_branch_then (hbody : body.full = true) (hreg : branch.Regular c)
    (ih : ∀ (t : Tree) (path : Path) (graves : Records), t.Holds (path.fill branch) graves →
      Inlines name body (branch.sites name) (branch.Becomes (Expr.readings name branch.toExpr)
        (Expr.inlined name body.toExpr branch.toExpr)) t path graves)
    (h : t.Holds (path.fill branch) graves) :
    ∃ first gone, ((branch.branchSite? name).toList.foldl (inlineAt name body) t).Holds
        (path.fill first) (gone + graves) ∧ gone.Resting ∧
      ∀ (t : Tree) (path : Path) (graves : Records), t.Holds (path.fill first) graves →
        Inlines name body (branch.sites name)
          (branch.Becomes (((Expr.branchReading? name branch.toExpr).map ([·])).getD
              (Expr.readings name branch.toExpr))
            ((Expr.inlinedBranch? name body.toExpr branch.toExpr).getD
              (Expr.inlined name body.toExpr branch.toExpr))) t path graves := by
  rcases @inline_branch _ _ _ body name _ _ hbody hreg h with
    ⟨hsite, hway, hexpr⟩ | ⟨way, e, hway, hexpr, hsites, first, gone, hholds, hgone, hfirst⟩
  · refine ⟨branch, 0, ?_, Records.resting_zero, ?_⟩
    · rw [hsite]
      exact h.congr (zero_add _).symm
    · rw [hway, hexpr]
      exact ih
  · refine ⟨first, gone, hholds, hgone, ?_⟩
    intro t path graves h
    rw [hway, hexpr, hsites]
    exact h.inlines_nil hfirst

/-- A join has its own branches replaced first. -/
theorem Holds.inline_join {id : NodeId} {value : Option Value} {left right : Subtree}
    (hbody : body.full = true) (hleft : left.Regular c) (hright : right.Regular c)
    (ih : ∀ child, some child ∈ [some left, some right] → ∀ (t : Tree) (path : Path)
      (graves : Records), t.Holds (path.fill child) graves → Inlines name body (child.sites name)
        (child.Becomes (Expr.readings name child.toExpr)
          (Expr.inlined name body.toExpr child.toExpr)) t path graves)
    (h : t.Holds (path.fill (.node id .input2 value [some left, some right])) graves) :
    Inlines name body ((Subtree.node id .input2 value [some left, some right]).sites name)
      ((Subtree.node id .input2 value [some left, some right]).Becomes
        (Expr.readingsFrom name .input2 0 [left.toExpr, right.toExpr])
        (.node .input2 value
          (Expr.inlinedAll name body.toExpr .input2 [left.toExpr, right.toExpr]))) t path
      graves := by
  have hsites : (Subtree.node id .input2 value [some left, some right]).sites name =
      (left.branchSite? name).toList ++ ((right.branchSite? name).toList ++
        (left.sites name ++ right.sites name)) := by
    rw [Subtree.sites_eq]
    change [some left, some right].filterMap (fun slot => slot.bind (Subtree.branchSite? name)) ++
      Subtree.sitesIn name [some left, some right] = _
    cases hl : left.branchSite? name <;> cases hr : right.branchSite? name <;> simp [hl, hr]
  -- The frame of one branch changes with the other branch.
  let l (other : Subtree) : Frame := ⟨id, .input2, value, [], [some other]⟩
  let r (other : Subtree) : Frame := ⟨id, .input2, value, [some other], []⟩
  obtain ⟨left₁, gone₁, h₁, hgone₁, hbelowLeft⟩ :=
    @inline_branch_then t graves (l right :: path) body name c left hbody hleft
      (ih left (by simp)) h
  obtain ⟨right₁, gone₂, h₂, hgone₂, hbelowRight⟩ :=
    @inline_branch_then _ _ (r left₁ :: path) body name c right hbody hright
      (ih right (by simp)) h₁
  obtain ⟨left₂, gone₃, h₃, hgone₃, hfullLeft, hexprLeft, hagreesLeft⟩ :=
    hbelowLeft _ (l right₁ :: path) _ h₂
  obtain ⟨right₂, gone₄, h₄, hgone₄, hfullRight, hexprRight, hagreesRight⟩ :=
    hbelowRight _ (r left₂ :: path) _ h₃
  refine ⟨.node id .input2 value [some left₂, some right₂], gone₄ + (gone₃ + (gone₂ + gone₁)),
    ?_, hgone₄.add (hgone₃.add (hgone₂.add hgone₁)), ?_, ?_, ?_⟩
  · rw [hsites, List.foldl_append, List.foldl_append, List.foldl_append]
    exact h₄.congr (by abel)
  · simp [Subtree.full, Subtree.fullAll, hfullLeft, hfullRight]
  · rw [Subtree.toExpr, Subtree.toExprs, Subtree.toExprs, Subtree.toExprs, hexprLeft, hexprRight]
    rfl
  · exact (hagreesLeft.cons (hagreesRight.cons (Subtree.slotsAgreeOff_nil [] 2))).node

/-- Replacing the sites of a regular subtree one after the other puts the body of the view for every
relation of that name. All else stays where it is. -/
theorem Holds.inline_sites (hbody : body.full = true) : ∀ s : Subtree, s.Regular c →
    ∀ (t : Tree) (path : Path) (graves : Records), t.Holds (path.fill s) graves →
      Inlines name body (s.sites name) (s.Becomes (Expr.readings name s.toExpr)
        (Expr.inlined name body.toExpr s.toExpr)) t path graves := by
  refine Subtree.of_slots ?_
  intro s ih hreg t path graves h
  have hall := (Subtree.regular_iff.mp hreg).2
  replace ih : ∀ child, some child ∈ s.slots → ∀ (t : Tree) (path : Path) (graves : Records),
      t.Holds (path.fill child) graves → Inlines name body (child.sites name)
        (child.Becomes (Expr.readings name child.toExpr)
          (Expr.inlined name body.toExpr child.toExpr)) t path graves :=
    fun child hchild => ih child hchild (hall.of_mem hchild)
  have hfull := hreg.full
  obtain ⟨id, kind, value, slots⟩ := s
  have hvalue := Subtree.value_child_toExpr hfull id kind value 0
  rw [Subtree.toExpr, Expr.inlined, Expr.readings, hvalue]
  by_cases hjoin : kind = .input2
  · subst hjoin
    obtain ⟨left, right, hslots, hleft, hright, _⟩ := hreg.exists_slots rfl
    obtain rfl : slots = [some left, some right] := hslots
    rw [if_neg (fun hc => nomatch hc.1), if_neg (fun hc => nomatch hc.1)]
    exact h.inline_join hbody hleft hright ih
  · by_cases hreads : kind = .input1 ∧
        (Subtree.node id kind value slots).slotValue 0 = some (.name name)
    · rw [if_pos hreads, if_pos hreads]
      obtain ⟨rfl, hname⟩ := hreads
      obtain ⟨hsites, hrest⟩ := hreg.sites_of_reads rfl hname
      obtain ⟨copy, hcopy, hs, hholds⟩ := @inlineAt_relation _ _ _ _ body name h hbody
      rw [hsites]
      exact hholds.inlines hrest ⟨hs, hcopy, Subtree.agreesOff_top _ copy⟩
    · rw [if_neg hreads, if_neg hreads]
      have hsites : (Subtree.node id kind value slots).sites name =
          Subtree.sitesIn name slots := by
        rw [Subtree.sites_eq,
          @Subtree.sitesAt_eq_nil (.node id kind value slots) name hjoin hreads]
        rfl
      obtain ⟨slots', gone, hholds, hgone, hfulls, hexprs, hagrees⟩ :=
        @inline_slots t graves path body name c id kind value slots hjoin hall ih [] h
      rw [hsites]
      exact ⟨.node id kind value slots', gone, hholds, hgone, hfulls,
        by rw [Subtree.toExpr, hexprs], hagrees.node⟩

end Tree

namespace Edit

variable {view t t' left : Tree} {count : Nat} {cause : Error}

theorem inline_eq (view t : Tree) : inline view t =
    match view.asView with
    | .error cause => .error (.malformedTree cause) t
    | .ok (name, body) =>
      match t.sites name with
      | [] => .error (.unresolvedReference name) t
      | site :: sites => .ok (site :: sites).length
        ((site :: sites).foldl (Tree.inlineAt name body) t) := by
  rw [inline]
  cases view.asView with
  | error cause => rfl
  | ok named =>
      dsimp only
      rw [get_bind]
      cases t.sites named.1 <;> rfl

/-- A view that cannot be inlined leaves the target as it was. -/
theorem eq_of_inline_eq_error (h : inline view t = .error cause left) : left = t := by
  rw [inline_eq] at h
  split at h
  · cases h
    rfl
  · split at h
    · cases h
      rfl
    · cases h

theorem exists_of_inline_eq_ok (h : inline view t = .ok count t') : ∃ name body,
    view.asView = .ok (name, body) ∧ t' = (t.sites name).foldl (Tree.inlineAt name body) t := by
  rw [inline_eq] at h
  split at h
  · cases h
  case h_2 name body hview =>
    split at h
    · cases h
    case h_2 site sites hsites =>
      cases h
      exact ⟨name, body, hview, by rw [hsites]⟩

end Edit

namespace Tree

variable {view t t' : Tree} {s top body : Subtree} {graves graves' : Records} {c : Contract}
  {name : String} {count : Nat}

/-- A view is an assignment. Its name and its body stand in the two slots. -/
theorem Holds.asView_eq_ok (h : view.Holds top graves) : view.asView = .ok (name, body) ↔
    top.kind = .assign ∧ top.slotValue 0 = some (.name name) ∧ top.child 1 = some body := by
  simp only [asView, h.subtree_eq]
  by_cases hkind : top.kind = .assign
  · rw [if_neg (not_not_intro hkind)]
    rcases top.slotValue 0 with _ | v
    · simp
    · rcases top.child 1 with _ | below
      · cases v <;> simp [Value.asName?]
      · cases v <;> simp [Value.asName?, hkind]
  · simp [hkind]

/-- Inlining a regular view into a regular tree puts its body for every relation of its name and
leaves all else where it is. What has been replaced is at rest. -/
theorem Holds.inline (h : t.Holds s graves) (hreg : s.Regular c) (hview : view.Holds top graves')
    (htop : top.Regular c) (hrun : Edit.inline view t = .ok count t') :
    ∃ name body s' gone, view.asView = .ok (name, body) ∧ t'.Holds s' (gone + graves) ∧
      s.Becomes (Expr.readings name s.toExpr) (Expr.inlined name body.toExpr s.toExpr) s' ∧
      s'.Regular c ∧ gone.Resting := by
  obtain ⟨name, body, hbody, rfl⟩ := Edit.exists_of_inline_eq_ok hrun
  obtain ⟨_, _, hchild⟩ := hview.asView_eq_ok.mp hbody
  obtain ⟨f, rfl, _⟩ := Subtree.exists_frame hchild
  obtain ⟨_, _, hregular⟩ := Frame.regular_fill.mp htop
  have hsites : t.sites name = s.sites name := by
    rw [Tree.sites, h.subtree_eq]
    rfl
  obtain ⟨s', gone, hholds, hgone, hbecomes⟩ :=
    @inline_sites body name c hregular.full s hreg t [] graves h
  refine ⟨name, body, s', gone, hbody, hsites ▸ hholds, hbecomes, ?_, hgone⟩
  rw [← Subtree.regular_toExpr hbecomes.full, hbecomes.toExpr_eq]
  exact Expr.regular_inlined ((Subtree.regular_toExpr hregular.full).mpr hregular)
    ((Subtree.regular_toExpr hreg.full).mpr hreg)

end Tree

end FlatSelect
