import FlatSelect.Proofs.Consistent

/-!
# Inlining, as it is seen from outside

Inlining a view comes to one rewriting of the target's expression (`Expr.inlined`), and this says
how many places are replaced, or that there is none (`Expr.readings`). A node that is not at such a
place, nor below one, keeps its number, its kind and its value, and stands where it stood
(`Tree.Reached.inline_eq_inlined`).
-/

namespace FlatSelect

namespace Expr

variable {name : String} {body : Expr}

/-- What one comes to on a way down. -/
def follow : Expr → List Nat → Option Expr
  | e, [] => some e
  | e, slot :: way => e.children[slot]?.bind fun child => child.follow way

/-- What a reference has given way to: the body, or a branch over the body with the name of the view
for its alias. -/
def IsInlined (name : String) (body e : Expr) : Prop :=
  e = body ∨ e = .renameAll name body

theorem exists_of_branchReading {e : Expr} {way : List Nat}
    (h : branchReading? name e = some way) : ∃ e' below,
      inlinedBranch? name body e = some e' ∧ e'.follow way = some below ∧
        IsInlined name body below := by
  obtain ⟨kind, value, children⟩ := e
  cases kind
  case constant =>
    rw [branchReading?] at h
    split at h
    case isTrue hvalue =>
      cases h
      exact ⟨_, _, if_pos hvalue, rfl, .inr rfl⟩
    case isFalse => cases h
  case renameAll =>
    rw [branchReading?] at h
    split at h
    case isTrue hvalue =>
      cases h
      refine ⟨_, body, if_pos hvalue, ?_, .inl rfl⟩
      obtain ⟨relation, hrelation, _⟩ := Option.bind_eq_some_iff.mp hvalue
      rw [follow, Expr.children, List.getElem?_set_self', hrelation]
      rfl
    case isFalse => cases h
  all_goals cases h

theorem inlinedBranch_eq_none {e : Expr} (h : branchReading? name e = none) :
    inlinedBranch? name body e = none := by
  obtain ⟨kind, value, children⟩ := e
  cases kind
  case constant | renameAll =>
    rw [branchReading?] at h
    split at h
    case isTrue => cases h
    case isFalse hvalue => exact if_neg hvalue
  all_goals rfl

/-- A branch of a join that reads a relation by its name is replaced at once. Any other operand is
gone through. -/
theorem operand_cases (name : String) (body : Expr) (parent : Kind) (e : Expr) :
    let ways := ((if parent = .input2 then branchReading? name e else none).map ([·])).getD
      (readings name e)
    let e' := (if parent = .input2 then inlinedBranch? name body e else none).getD
      (inlined name body e)
    (ways = readings name e ∧ e' = inlined name body e) ∨
      ∃ way below, ways = [way] ∧ e'.follow way = some below ∧ IsInlined name body below := by
  by_cases hjoin : parent = .input2
  · rw [if_pos hjoin, if_pos hjoin]
    cases hway : branchReading? name e with
    | none =>
        rw [inlinedBranch_eq_none hway]
        exact .inl ⟨rfl, rfl⟩
    | some way =>
        obtain ⟨e', below, hinlined, hfollow, hbelow⟩ := exists_of_branchReading hway
        rw [hinlined]
        exact .inr ⟨way, below, rfl, hfollow, hbelow⟩
  · rw [if_neg hjoin, if_neg hjoin]
    exact .inl ⟨rfl, rfl⟩

mutual
/-- Where a reference was, there is what it has given way to. -/
theorem follow_inlined : ∀ {e : Expr} {way : List Nat}, way ∈ readings name e →
    ∃ below, (inlined name body e).follow way = some below ∧ IsInlined name body below
  | .node kind value children, way, h => by
    rw [readings] at h
    rw [inlined]
    split at h
    case isTrue hreads =>
      obtain rfl := List.mem_singleton.mp h
      rw [if_pos hreads]
      exact ⟨body, rfl, .inl rfl⟩
    case isFalse hreads =>
      rw [if_neg hreads]
      obtain ⟨i, rest, e', below, rfl, hget, hfollow, hbelow⟩ := follow_inlinedAll h
      refine ⟨below, ?_, hbelow⟩
      rw [Nat.zero_add, follow, Expr.children, hget]
      exact hfollow
theorem follow_inlinedAll {parent : Kind} : ∀ {es : List Expr} {slot : Nat} {way : List Nat},
    way ∈ readingsFrom name parent slot es → ∃ i rest e' below, way = (slot + i) :: rest ∧
      (inlinedAll name body parent es)[i]? = some e' ∧ e'.follow rest = some below ∧
        IsInlined name body below
  | [], _, _, h => absurd h List.not_mem_nil
  | e :: es, slot, way, h => by
    rw [readingsFrom, List.mem_append, List.mem_map] at h
    rcases h with ⟨rest, hrest, rfl⟩ | h
    · rcases operand_cases name body parent e with ⟨hways, he⟩ | ⟨way, below, hways, hfollow⟩
      · rw [hways] at hrest
        obtain ⟨below, hfollow⟩ := follow_inlined hrest
        refine ⟨0, rest, _, below, rfl, rfl, ?_⟩
        rw [he]
        exact hfollow
      · rw [hways] at hrest
        obtain rfl := List.mem_singleton.mp hrest
        exact ⟨0, rest, _, below, rfl, rfl, hfollow⟩
    · obtain ⟨i, rest, e', below, rfl, hfollow⟩ := follow_inlinedAll h
      exact ⟨i + 1, rest, e', below, by rw [Nat.succ_add_eq_add_succ], hfollow⟩
end

mutual
/-- Where there is no reference, nothing changes. -/
theorem inlined_of_readings : ∀ {e : Expr}, readings name e = [] → inlined name body e = e
  | .node kind value children, h => by
    rw [readings] at h
    split at h
    case isTrue => cases h
    case isFalse hreads => rw [inlined, if_neg hreads, inlinedAll_of_readings h]
theorem inlinedAll_of_readings {parent : Kind} : ∀ {es : List Expr} {slot : Nat},
    readingsFrom name parent slot es = [] → inlinedAll name body parent es = es
  | [], _, _ => rfl
  | e :: es, slot, h => by
    obtain ⟨hfirst, hrest⟩ := List.append_eq_nil_iff.mp h
    rw [List.map_eq_nil_iff] at hfirst
    rw [inlinedAll, inlinedAll_of_readings hrest]
    rcases operand_cases name body parent e with ⟨hways, he⟩ | ⟨way, below, hways, _⟩
    · rw [he, inlined_of_readings (hways.symm.trans hfirst)]
    · cases hways.symm.trans hfirst
end

end Expr

/-! ### Sites are references -/

namespace Subtree

variable {c : Contract} {s : Subtree} {name : String}

theorem sitesAt_eq (hreads : ¬ (s.kind = .input1 ∧ s.slotValue 0 = some (.name name))) :
    s.sitesAt name = if s.kind = .input2 then
      s.slots.filterMap fun slot => slot.bind (branchSite? name) else [] := by
  split
  case isTrue hjoin => simp only [sitesAt, hjoin]
  case isFalse hjoin => exact sitesAt_eq_nil hjoin hreads

/-- A branch of a join is a site, or has sites below it. -/
theorem Regular.length_branch (h : s.Regular c)
    (ih : (s.sites name).length = (Expr.readings name s.toExpr).length) :
    (s.branchSite? name).toList.length + (s.sites name).length =
      (((Expr.branchReading? name s.toExpr).map ([·])).getD
        (Expr.readings name s.toExpr)).length := by
  rcases h.branch_cases name with ⟨hsite, hway, _⟩ | ⟨id, rfl⟩ | ⟨id, first, v, second, rfl⟩
  · rw [hsite, hway, Option.map_none, Option.getD_none, ← ih]
    exact Nat.zero_add _
  · have hsite : (Subtree.node id .constant (some (.name name)) []).branchSite? name =
        some (.bareBranch id) := if_pos rfl
    have hway : Expr.branchReading? name
        (Subtree.node id .constant (some (.name name)) []).toExpr = some [] := if_pos rfl
    rw [hsite, hway]
    rfl
  · let branch : Subtree := .node id .renameAll none
      [some (.node first .constant (some v) []),
        some (.node second .constant (some (.name name)) [])]
    have hsite : branch.branchSite? name = some (.aliasedBranch id) := if_pos rfl
    have hway : Expr.branchReading? name branch.toExpr = some [1] := if_pos rfl
    rw [hsite, hway]
    rfl

/-- The sites below a `parent`, and those that it has itself if it is a join. -/
theorem RegularAll.length_sites {parent : Kind} {slots : List (Option Subtree)}
    (h : RegularAll c slots) (slot : Nat)
    (ih : ∀ child, some child ∈ slots →
      (child.sites name).length = (Expr.readings name child.toExpr).length) :
    (if parent = .input2 then slots.filterMap fun slot => slot.bind (branchSite? name)
      else []).length + (sitesIn name slots).length =
      (Expr.readingsFrom name parent slot (toExprs slots)).length := by
  induction slots generalizing slot with
  | nil => split <;> rfl
  | cons child rest ihrest =>
      cases child with
      | none => exact h.elim
      | some s =>
          have hs := ih s List.mem_cons_self
          have hrest := ihrest h.2 (slot + 1) fun child hchild =>
            ih child (List.mem_cons_of_mem _ hchild)
          rw [sitesIn_some, List.length_append, toExprs, Expr.readingsFrom, List.length_append,
            List.length_map, ← hrest]
          by_cases hjoin : parent = .input2
          · have hbranch := h.1.length_branch hs
            have hsites : ((some s :: rest).filterMap fun slot =>
                slot.bind (branchSite? name)).length = (s.branchSite? name).toList.length +
                  (rest.filterMap fun slot => slot.bind (branchSite? name)).length := by
              cases hsite : s.branchSite? name <;> simp [hsite, Nat.add_comm]
            simp only [if_pos hjoin]
            omega
          · simp only [if_neg hjoin, Option.map_none, Option.getD_none, List.length_nil]
            omega

/-- There are as many sites as references. -/
theorem length_sites : ∀ s : Subtree, s.Regular c →
    (s.sites name).length = (Expr.readings name s.toExpr).length := by
  refine of_slots ?_
  intro s ih hreg
  have hall := (regular_iff.mp hreg).2
  have hfull := hreg.full
  obtain ⟨id, kind, value, slots⟩ := s
  have hvalue := value_child_toExpr hfull id kind value 0
  rw [toExpr, Expr.readings, hvalue]
  by_cases hreads : kind = .input1 ∧
      (Subtree.node id kind value slots).slotValue 0 = some (.name name)
  · obtain ⟨hsites, _⟩ := hreg.sites_of_reads hreads.1 hreads.2
    rw [if_pos hreads, hsites]
    rfl
  · rw [if_neg hreads, sites_eq, @sitesAt_eq (.node id kind value slots) name hreads,
      List.length_append]
    exact hall.length_sites 0 fun child hchild => ih child hchild (hall.of_mem hchild)

end Subtree

/-! ### Nodes on a way -/

namespace Tree

variable {t t' view : Tree} {s : Subtree} {graves : Records} {c : Contract} {name : String}
  {body : Expr}

/-- Whoever follows a way in a tree comes to the node that it leads to in what the tree holds. -/
theorem Holds.follow_eq {path : Path} (h : t.Holds (path.fill s) graves) (way : List Nat) :
    (t.follow s.id way).map (fun id => (id, t.kind id, t.value id)) = s.nodeAt? way := by
  induction way generalizing path s with
  | nil =>
      have hfoot := h.stores_foot
      rw [follow, Option.map_some, hfoot.kind_eq, hfoot.value_eq]
      rfl
  | cons slot way ih =>
      rw [follow, h.stores_foot.child_eq, Subtree.nodeAt?, Subtree.follow]
      cases hchild : s.child slot with
      | none => rfl
      | some child =>
          obtain ⟨f, rfl, _⟩ := Subtree.exists_frame hchild
          have hchild : t.Holds (Path.fill (f :: path) child) graves := h
          exact ih hchild

/-- What one comes to by one more slot stands in that slot. -/
theorem Consistent.place_of_follow (h : t.Consistent) {way : List Nat} {slot : Nat}
    {parent id : NodeId} (hparent : t.follow t.root way = some parent)
    (hid : t.follow t.root (way ++ [slot]) = some id) : t.place id = some ⟨parent, slot⟩ := by
  rw [follow_concat, hparent] at hid
  exact h.child_iff.mp hid

/-- A tree that is written down as an assignment is a view with the name and the body of that. -/
theorem Holds.exists_asView (h : view.Holds s graves) (hreg : s.Regular c)
    (hexpr : view.toExpr = .assign name body) :
    ∃ below, view.asView = .ok (name, below) ∧ below.toExpr = body := by
  rw [h.toExpr_eq] at hexpr
  obtain ⟨id, kind, value, slots⟩ := s
  obtain ⟨hkind, hvalue, hslots⟩ := (Expr.node.injEq ..).mp hexpr
  obtain rfl : kind = .assign := hkind
  obtain ⟨first, second, rfl, _⟩ := hreg.exists_slots rfl
  simp only [Subtree.toExprs, List.cons.injEq, and_true] at hslots
  obtain ⟨hfirst, hsecond⟩ := hslots
  refine ⟨second, h.asView_eq_ok.mpr ⟨rfl, ?_, rfl⟩, hsecond⟩
  change first.value = _
  rw [← first.value_toExpr, hfirst]
  rfl

/-- Where two trees agree off some ways, the nodes that are not at one of these stay where they
are. -/
theorem Holds.stays {ways : List (List Nat)} {s' : Subtree} {graves' : Records}
    (h : t.Holds s graves) (h' : t'.Holds s' graves') (hlinks : t.Consistent)
    (hlinks' : t'.Consistent) (hagrees : s.AgreesOff ways s') {way : List Nat} {id : NodeId}
    (houtside : Outside ways way) (hid : t.follow t.root way = some id) :
    t'.follow t'.root way = some id ∧ t'.kind id = t.kind id ∧ t'.value id = t.value id ∧
      t'.place id = t.place id := by
  have hsame : ∀ {way id}, Outside ways way → t.follow t.root way = some id →
      t'.follow t'.root way = some id ∧ t'.kind id = t.kind id ∧ t'.value id = t.value id := by
    intro way id houtside hid
    have hnode := @Holds.follow_eq t s graves [] h way
    have hnode' := @Holds.follow_eq t' s' graves' [] h' way
    rw [← h.root_eq, hid] at hnode
    rw [← h'.root_eq, hagrees way houtside, ← hnode] at hnode'
    obtain ⟨id', hid', heq⟩ := Option.map_eq_some_iff.mp hnode'
    simp only [Prod.mk.injEq] at heq
    obtain ⟨rfl, hkind, hvalue⟩ := heq
    exact ⟨hid', hkind, hvalue⟩
  obtain ⟨hid', hkind, hvalue⟩ := hsame houtside hid
  refine ⟨hid', hkind, hvalue, ?_⟩
  cases way using List.reverseRecOn with
  | nil =>
      cases hid
      rw [hlinks.place_root, ← hlinks'.place_root]
      exact congrArg t'.place (Option.some.inj hid').symm
  | append_singleton way slot =>
      have habove := houtside.of_above (List.prefix_append way [slot])
      obtain ⟨parent, hparent, _⟩ :=
        Option.bind_eq_some_iff.mp ((follow_concat t t.root way slot).symm.trans hid)
      obtain ⟨hparent', _⟩ := hsame habove hparent
      rw [hlinks.place_of_follow hparent hid]
      exact hlinks'.place_of_follow hparent' hid'

/-- A view is inlined unless there is no reference to it. -/
theorem Holds.inline_cases {below : Subtree} (h : t.Holds s graves) (hreg : s.Regular c)
    (hview : view.asView = .ok (name, below)) :
    (Expr.readings name t.toExpr = [] ∧
      Edit.inline view t = .error (.unresolvedReference name) t) ∨
    (Expr.readings name t.toExpr ≠ [] ∧ ∃ t',
      Edit.inline view t = .ok (Expr.readings name t.toExpr).length t') := by
  have hlength : (t.sites name).length = (Expr.readings name t.toExpr).length := by
    rw [sites, h.subtree_eq, h.toExpr_eq]
    exact Subtree.length_sites s hreg
  rw [Edit.inline_eq, hview]
  dsimp only
  cases hsites : t.sites name with
  | nil =>
      rw [hsites] at hlength
      exact .inl ⟨List.length_eq_zero_iff.mp hlength.symm, rfl⟩
  | cons site sites =>
      rw [hsites] at hlength
      refine .inr ⟨fun hnone => ?_, _, by rw [← hlength]⟩
      rw [hnone] at hlength
      cases hlength

/-- Inlining a view comes to one rewriting of the target from the top down, which puts the body for
every relation that is read by the name of the view. If there is none, the reference is unresolved
and nothing changes. If there are some, then the answer is their number, and a node that is not at
one of them, nor below it, is still the same node at the same place. -/
theorem Reached.inline_eq_inlined (h : Reached c t) (hview : Reached c view)
    (hexpr : view.toExpr = .assign name body) :
    (Edit.inline view t = .error (.unresolvedReference name) t ↔
      Expr.readings name t.toExpr = []) ∧
    (Expr.readings name t.toExpr = [] → Expr.inlined name body t.toExpr = t.toExpr) ∧
    (Expr.readings name t.toExpr ≠ [] → ∃ t',
      Edit.inline view t = .ok (Expr.readings name t.toExpr).length t' ∧
      t'.toExpr = Expr.inlined name body t.toExpr ∧
      (∀ way ∈ Expr.readings name t.toExpr, ∃ below,
        t'.toExpr.follow way = some below ∧ Expr.IsInlined name body below) ∧
      ∀ way id, Outside (Expr.readings name t.toExpr) way → t.follow t.root way = some id →
        t'.follow t'.root way = some id ∧ t'.kind id = t.kind id ∧ t'.value id = t.value id ∧
          t'.place id = t.place id) := by
  obtain ⟨s, graves, hholds, hreg, _⟩ := id h.intact
  obtain ⟨top, graves', hholds', htop, _⟩ := id hview.intact
  obtain ⟨below, hasView, rfl⟩ := hholds'.exists_asView htop hexpr
  rcases hholds.inline_cases hreg hasView with ⟨hnone, herror⟩ | ⟨hsome, t', hrun⟩
  · exact ⟨iff_of_true herror hnone, Expr.inlined_of_readings, fun hsome => absurd hnone hsome⟩
  · refine ⟨iff_of_false ?_ hsome, Expr.inlined_of_readings, fun _ => ⟨t', hrun, ?_⟩⟩
    · rw [hrun]
      exact fun herror => nomatch herror
    · obtain ⟨_, _, s', gone, hasView', hresult, hbecomes, _⟩ :=
        hholds.inline hreg hholds' htop hrun
      cases hasView.symm.trans hasView'
      have hafter : t'.toExpr = Expr.inlined name below.toExpr t.toExpr := by
        rw [hresult.toExpr_eq, hbecomes.toExpr_eq, hholds.toExpr_eq]
      refine ⟨hafter, fun way hway => ?_, fun way id houtside hid => ?_⟩
      · rw [hafter]
        exact Expr.follow_inlined hway
      · have hlinks' : t'.Consistent := (h.intact.inline hview.intact hrun).consistent_links
        rw [hholds.toExpr_eq] at houtside
        exact hholds.stays hresult h.intact.consistent_links hlinks' hbecomes.agrees houtside hid

/-- A view that reads a relation of its own name goes into a join within a join and below a
projection. The branch with an alias stays the node that it was. -/
theorem Reached.inline_eq_inlined_joins :
    let body := Expr.condition (.name "p") (.input2 (.name "v") (.branch "B" "u"))
    let view := Expr.assign "v" body
    let target := Expr.assign "T" (.input2 (.renameAll "A" (.input2 (.name "v") (.branch "C" "v")))
      (.projection ["a"] (.input1 "v")))
    ∃ v t t', ofExpr view = .ok v ∧ ofExpr target = .ok t ∧
      Expr.readings "v" target = [[1, 0, 1, 0], [1, 0, 1, 1, 1], [1, 1, 1]] ∧
      Edit.inline v t = .ok 3 t' ∧
      t'.toExpr = .assign "T" (.input2
        (.renameAll "A" (.input2 (.renameAll "v" body) (.renameAll "C" body)))
        (.projection ["a"] body)) ∧
      t.follow t.root [1, 0, 1, 1] = some 5 ∧ t'.follow t'.root [1, 0, 1, 1] = some 5 ∧
      t'.place 5 = t.place 5 := by
  intro body view target
  let v := planted view
  let t := planted target
  have hview : ofExpr view = .ok v := ofExpr_eq_ok.mpr ⟨rfl, rfl⟩
  have htarget : ofExpr target = .ok t := ofExpr_eq_ok.mpr ⟨rfl, rfl⟩
  have hviewExpr : v.toExpr = view := by decide +kernel
  have htargetExpr : t.toExpr = target := by decide +kernel
  have hnode : t.follow t.root [1, 0, 1, 1] = some 5 := by decide +kernel
  have hreached : Reached .strict t := .built htarget
  obtain ⟨_, _, hinline⟩ := hreached.inline_eq_inlined (.built hview) hviewExpr
  rw [htargetExpr] at hinline
  obtain ⟨t', hrun, hexpr, _, hstays⟩ := hinline (by decide +kernel)
  obtain ⟨hnode', _, _, hplace⟩ := hstays [1, 0, 1, 1] 5 (by decide +kernel) hnode
  exact ⟨v, t, t', hview, htarget, by decide +kernel, hrun, hexpr, hnode, hnode', hplace⟩

end Tree

end FlatSelect
