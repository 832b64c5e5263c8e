import FlatSelect.Pipeline
import FlatSelect.Proofs.Intact
import Mathlib.Logic.Function.Basic

/-!
# All or nothing

An edit is atomic if it leaves the tree as it was where it fails. Some edits are made so: the tree
is put back. The others read before they write (`Edit.Reads.bind`) and do not fail any more once
they write (`Edit.Certain`), which is how every transfer goes about it (`Transfer.atomic_apply`),
and how views are inlined. None of this depends on what values there are in the tree.

So of any calls on a number of trees, those that fail might as well not have been made: the calls
that succeed have the same answers without them and lead to the same trees
(`Call.run_succeeding`).
-/

namespace FlatSelect

namespace Edit

variable {α β : Type} {e : Edit α} {f : α → Edit β}

/-- An edit that leaves the tree as it was where it fails. -/
def Atomic (e : Edit α) : Prop :=
  ∀ ⦃t left : Tree⦄ ⦃cause : Error⦄, e t = .error cause left → left = t

/-- An edit that leaves the tree as it was, whether it fails or not. -/
def Reads (e : Edit α) : Prop :=
  ∀ t : Tree, e.left t = t

/-- An edit that does not fail. -/
def Certain (e : Edit α) : Prop :=
  ∀ t : Tree, ∃ a changed, e t = .ok a changed

theorem Reads.atomic (h : e.Reads) : e.Atomic := by
  intro t left cause hrun
  have hleft := h t
  rwa [Edit.left, hrun] at hleft

theorem Certain.atomic (h : e.Certain) : e.Atomic := by
  intro t left cause hrun
  obtain ⟨a, changed, hok⟩ := h t
  rw [hrun] at hok
  cases hok

/-- What is read first can do no harm. -/
theorem Reads.bind (h : e.Reads) (hf : ∀ a, (f a).Atomic) : (e >>= f).Atomic := by
  intro t left cause hrun
  have hleft := h t
  rw [bind_apply] at hrun
  rw [Edit.left] at hleft
  cases he : e t with
  | ok a changed =>
      rw [he] at hrun hleft
      obtain rfl : changed = t := hleft
      exact hf a hrun
  | error cause' left' =>
      rw [he] at hrun hleft
      cases hrun
      exact hleft

theorem Certain.bind (h : e.Certain) (hf : ∀ a, (f a).Certain) : (e >>= f).Certain := by
  intro t
  obtain ⟨a, changed, hok⟩ := h t
  rw [bind_apply, hok]
  exact hf a changed

/-- What can do no harm by failing can do none when something that does not fail comes after it. -/
theorem Atomic.bind (h : e.Atomic) (hf : ∀ a, (f a).Certain) : (e >>= f).Atomic := by
  intro t left cause hrun
  rw [bind_apply] at hrun
  cases he : e t with
  | ok a changed =>
      rw [he] at hrun
      exact absurd hrun (by obtain ⟨b, last, hok⟩ := hf a changed; simp [hok])
  | error cause' left' =>
      rw [he] at hrun
      cases hrun
      exact h he

theorem reads_get : Reads (get : Edit Tree) := fun _ => rfl

theorem reads_require (read : Tree → Option α) (fault : Malformation) :
    (require read fault).Reads := by
  intro t
  rw [Edit.left, require]
  cases read t <;> rfl

theorem certain_pure (a : α) : (pure a : Edit α).Certain := fun t => ⟨a, t, rfl⟩

theorem certain_modify (change : Tree → Tree) : (modify change : Edit PUnit).Certain :=
  fun t => ⟨_, change t, rfl⟩

theorem certain_modifyGet (change : Tree → α × Tree) : (modifyGet change : Edit α).Certain :=
  fun t => ⟨_, (change t).2, rfl⟩

theorem atomic_throw (cause : Error) : (throw cause : Edit α).Atomic :=
  Reads.atomic fun _ => rfl

theorem atomic_atomically (e : Edit α) : (atomically e).Atomic :=
  fun _ _ _ => eq_of_atomically_eq_error

/-- A change at the end of an edit. -/
theorem atomic_change (change : Tree → Tree) (a : α) :
    (do modify change; return a : Edit α).Atomic :=
  ((certain_modify change).bind fun _ => certain_pure a).atomic

/-- The sites are looked up before the first of them is replaced, and replacing does not fail. -/
theorem atomic_inline (view : Tree) : (inline view).Atomic := by
  rw [inline]
  split
  · exact atomic_throw _
  · refine reads_get.bind fun t => ?_
    split
    · exact atomic_throw _
    · exact atomic_change _ _

end Edit

/-- A transfer that fails has written nothing. -/
theorem Transfer.atomic_apply (x : Crossing) (rule : Transfer) : (rule.apply x).Atomic := by
  cases rule with
  | pass => exact (Edit.certain_pure _).atomic
  | qualifyRename =>
      exact (Edit.reads_require _ _).bind fun asName => (Edit.reads_require _ _).bind fun pair =>
        Edit.atomic_change _ _
  | qualifyProjection =>
      exact (Edit.reads_require _ _).bind fun asName => (Edit.reads_require _ _).bind fun entries =>
        Edit.atomic_change _ _
  | qualifyCondition =>
      exact (Edit.reads_require _ _).bind fun asName => (Edit.reads_require _ _).bind fun top =>
        Edit.atomic_change _ _
  | renameInCondition =>
      exact (Edit.reads_require _ _).bind fun pair => (Edit.reads_require _ _).bind fun top =>
        Edit.atomic_change _ _
  | renameInProjection =>
      refine (Edit.reads_require _ _).bind fun pair =>
        (Edit.reads_require _ _).bind fun entries => ?_
      cases Columns.foldRename? entries pair.1 pair.2 with
      | none => exact (Edit.certain_pure _).atomic
      | some entries' =>
          exact Edit.atomic_change _ _
  | renameInSource =>
      exact (Edit.reads_require _ _).bind fun pair => (Edit.reads_require _ _).bind fun column =>
        Edit.atomic_change _ _
  | deriveOverProjection =>
      exact (Edit.reads_require _ _).bind fun column => (Edit.reads_require _ _).bind fun entries =>
        Edit.atomic_change _ _
  | deriveOverCondition =>
      refine (Edit.reads_require _ _).bind fun column => (Edit.reads_require _ _).bind fun top =>
        Edit.reads_get.bind fun t => ?_
      dsimp only
      split
      · exact (Edit.atomic_throw _).bind fun _ => Edit.certain_pure _
      · exact (Edit.certain_pure _).atomic
  | widenProjection =>
      exact Edit.reads_get.bind fun t => (Edit.reads_require _ _).bind fun entries =>
        Edit.atomic_change _ _
  | mergeProjections =>
      exact (Edit.reads_require _ _).bind fun inner => (Edit.reads_require _ _).bind fun outer =>
        Edit.atomic_change _ _
  | conjoinConditions =>
      exact (Edit.reads_require _ _).bind fun outer => (Edit.reads_require _ _).bind fun inner =>
        ((Edit.certain_modify _).bind fun _ => (Edit.certain_modify _).bind fun _ =>
          (Edit.certain_modifyGet _).bind fun _ => (Edit.certain_modify _).bind fun _ =>
            Edit.certain_pure _).atomic

/-! ### Calls -/

/-- What may be asked of a tree. The trees that are read as views go by names. -/
inductive Request (ι : Type) where
  | lift (g : Grammar) (node : NodeId)
  | normalize (p : Pipeline)
  | inline (view : ι)
  | compose (p : Pipeline) (views : List ι)

/-- What comes of a request. -/
inductive Answer where
  | lifted (outcome : Lift.Outcome)
  | normalized (tally : Tally)
  | inlined (count : Nat)
  | printed (statement : String)
deriving DecidableEq

/-- A request to one of several trees. -/
structure Call (ι : Type) where
  target : ι
  request : Request ι

variable {ι : Type}

/-- What a request does to its target. -/
def Request.edit (trees : ι → Tree) : Request ι → Edit Answer
  | lift g node => return .lifted (← Edit.lift g node)
  | normalize p => return .normalized (← p.normalize)
  | inline view => return .inlined (← Edit.inline (trees view))
  | compose p views => return .printed (← p.compose (views.map trees))

theorem Request.atomic_edit (trees : ι → Tree) (request : Request ι) :
    (request.edit trees).Atomic := by
  cases request with
  | lift g node => exact (Edit.atomic_atomically _).bind fun _ => Edit.certain_pure _
  | normalize p => exact (Edit.atomic_atomically _).bind fun _ => Edit.certain_pure _
  | inline view => exact (Edit.atomic_inline _).bind fun _ => Edit.certain_pure _
  | compose p views => exact (Edit.atomic_atomically _).bind fun _ => Edit.certain_pure _

namespace Call

variable [DecidableEq ι] {trees : ι → Tree} {call : Call ι}

def answer (call : Call ι) (trees : ι → Tree) : Except Error Answer :=
  ((call.request.edit trees).result (trees call.target)).map Prod.fst

/-- The trees as they are after a call, also after one that fails. -/
def after (call : Call ι) (trees : ι → Tree) : ι → Tree :=
  Function.update trees call.target ((call.request.edit trees).left (trees call.target))

/-- The answers to several calls, one after the other, and the trees as they are then. -/
def run : List (Call ι) → (ι → Tree) → List (Except Error Answer) × (ι → Tree)
  | [], trees => ([], trees)
  | call :: calls, trees =>
    let (answers, last) := run calls (call.after trees)
    (call.answer trees :: answers, last)

/-- Of several calls, those that succeed when they are made one after the other. -/
def succeeding : List (Call ι) → (ι → Tree) → List (Call ι)
  | [], _ => []
  | call :: calls, trees =>
    if (call.answer trees).isOk then call :: succeeding calls (call.after trees)
    else succeeding calls (call.after trees)

/-- A call that fails changes no tree. -/
theorem after_of_error {cause : Error} (h : call.answer trees = .error cause) :
    call.after trees = trees := by
  rw [after, Function.update_eq_self_iff, Edit.left]
  rw [answer, Edit.result] at h
  cases hrun : call.request.edit trees (trees call.target) with
  | ok a changed =>
      rw [hrun] at h
      cases h
  | error cause' left => exact call.request.atomic_edit trees hrun

/-- Without the calls that fail, the others have the same answers and lead to the same trees. -/
theorem run_succeeding (calls : List (Call ι)) (trees : ι → Tree) :
    run (succeeding calls trees) trees =
      ((run calls trees).1.filter Except.isOk, (run calls trees).2) := by
  induction calls generalizing trees with
  | nil => rfl
  | cons call calls ih =>
      rw [succeeding, run]
      cases hanswer : call.answer trees with
      | ok a =>
          have hok : (Except.ok a : Except Error Answer).isOk = true := rfl
          rw [if_pos hok, run, hanswer, ih]
          rfl
      | error cause =>
          have herror : ¬(Except.error cause : Except Error Answer).isOk = true :=
            Bool.false_ne_true
          rw [if_neg herror, after_of_error hanswer, ih]
          rfl

/-- A call that fails changes no tree, whatever there is in the trees, and one that succeeds changes
no tree but its target. So calls that fail might as well not have been made: the others have the
same answers without them and lead to the same trees. And a transfer that fails changes nothing
either. -/
theorem all_or_nothing (calls : List (Call ι)) (trees : ι → Tree) :
    run (succeeding calls trees) trees =
      ((run calls trees).1.filter Except.isOk, (run calls trees).2) ∧
    (∀ (call : Call ι) (trees : ι → Tree) (cause : Error),
      call.answer trees = .error cause → call.after trees = trees) ∧
    (∀ (call : Call ι) (trees : ι → Tree) (name : ι), name ≠ call.target →
      call.after trees name = trees name) ∧
    ∀ (rule : Transfer) (x : Crossing) (t left : Tree) (cause : Error),
      rule.apply x t = .error cause left → left = t := by
  refine ⟨run_succeeding calls trees, fun _ _ _ => after_of_error, ?_,
    fun rule x _ _ _ h => rule.atomic_apply x h⟩
  intro call trees name hne
  exact Function.update_of_ne hne _ _

/-- Two of four calls fail: there is nothing left to inline when a view is inlined again, and a
normalization must not lift anything. A transfer fails where a list of columns has been overwritten
by a name. -/
theorem all_or_nothing_inlined_again :
    let query := Expr.assign "V" (.condition (.name "a") (.input1 "v"))
    let view := Expr.assign "v" (.rename "a" "b" (.input1 "t"))
    let unable : Pipeline := ⟨.flatSelect, { Settings.standard with maxLifts := 0 }⟩
    let again : Call Bool := ⟨false, .inline true⟩
    let calls : List (Call Bool) :=
      [⟨false, .inline true⟩, again, ⟨false, .normalize unable⟩, ⟨false, .compose .standard []⟩]
    let spoiled := (Tree.planted (.assign "V"
      (.projection ["a"] (.projection ["a"] (.input1 "t"))))).setValue 1 (.name "a")
    ∃ trees : Bool → Tree, Tree.ofExpr query = .ok (trees false) ∧
      Tree.ofExpr view = .ok (trees true) ∧
      (run calls trees).1 = [.ok (.inlined 1), .error (.unresolvedReference "v"),
        .error (.nonCanonicalizable (.budgetSpent 0)),
        .ok (.printed "SELECT * INTO V FROM t WHERE (b)")] ∧
      run (succeeding calls trees) trees =
        ([.ok (.inlined 1), .ok (.printed "SELECT * INTO V FROM t WHERE (b)")],
          (run calls trees).2) ∧
      (let inlined := (run (calls.take 1) trees).2
      again.answer inlined = .error (.unresolvedReference "v") ∧ again.after inlined = inlined ∧
        inlined true = trees true) ∧
      ∃ left cause, Transfer.mergeProjections.apply ⟨5, ⟨6, 1⟩⟩ spoiled = .error cause left ∧
        left = spoiled := by
  intro query view unable again calls spoiled
  let trees : Bool → Tree := fun name => .planted (bif name then view else query)
  have hanswers : (run calls trees).1 = [.ok (.inlined 1), .error (.unresolvedReference "v"),
      .error (.nonCanonicalizable (.budgetSpent 0)),
      .ok (.printed "SELECT * INTO V FROM t WHERE (b)")] := by decide +kernel
  have hanswer : again.answer (run (calls.take 1) trees).2 = .error (.unresolvedReference "v") := by
    decide +kernel
  obtain ⟨hrun, hfails, hothers, htransfer⟩ := all_or_nothing calls trees
  rw [hanswers] at hrun
  refine ⟨trees, Tree.ofExpr_eq_ok.mpr ⟨rfl, rfl⟩, Tree.ofExpr_eq_ok.mpr ⟨rfl, rfl⟩, hanswers,
    hrun, ⟨hanswer, hfails _ _ _ hanswer, hothers ⟨false, .inline true⟩ trees true (by decide)⟩,
    ?_⟩
  cases happly : Transfer.mergeProjections.apply ⟨5, ⟨6, 1⟩⟩ spoiled with
  | ok verdict changed =>
      have hsome : (Transfer.mergeProjections.apply ⟨5, ⟨6, 1⟩⟩ spoiled |> fun
        | .ok _ _ => true
        | .error _ _ => false) = false := by decide +kernel
      rw [happly] at hsome
      cases hsome
  | error cause left => exact ⟨left, cause, rfl, htransfer _ _ _ _ _ happly⟩

end Call

end FlatSelect
