import FlatSelect.Tree.Basic

/-!
# Edits

An edit changes a tree step by step and may fail on the way. The tree that it leaves when it fails
is the tree as far as it has got, so that an edit leaves nothing half done is a fact about the edit.
`Edit.atomically` makes it one: where the edit fails, the tree is put back.
-/

namespace FlatSelect

/-- A change of a tree that has an answer or fails. -/
abbrev Edit := EStateM Error Tree

namespace Edit

/-- What `read` finds in the tree. Where it finds nothing, the edit fails with `fault`. -/
def require (read : Tree → Option α) (fault : Malformation) : Edit α := fun t =>
  match read t with
  | some a => .ok a t
  | none => .error (.malformedTree fault) t

/-- The same edit, but one that leaves the tree as it was where it fails. -/
def atomically (e : Edit α) : Edit α := fun t =>
  match e t with
  | .ok a changed => .ok a changed
  | .error cause _ => .error cause t

/-- The answer of an edit to a tree, with the changed tree. -/
def result (e : Edit α) (t : Tree) : Except Error (α × Tree) :=
  match e t with
  | .ok a changed => .ok (a, changed)
  | .error cause _ => .error cause

/-! ### Running edits -/

theorem bind_apply (e : Edit α) (f : α → Edit β) (t : Tree) :
    (e >>= f) t =
      match e t with
      | .ok a changed => f a changed
      | .error cause left => .error cause left := by
  simp only [bind, EStateM.bind]
  cases e t <;> rfl

theorem get_bind (f : Tree → Edit α) (t : Tree) : (get >>= f) t = f t t :=
  rfl

theorem modifyGet_bind (change : Tree → α × Tree) (f : α → Edit β) (t : Tree) :
    (modifyGet change >>= f) t = f (change t).1 (change t).2 :=
  rfl

theorem atomically_eq_ok_iff {e : Edit α} {t changed : Tree} {a : α} :
    atomically e t = .ok a changed ↔ e t = .ok a changed := by
  cases h : e t <;> simp [atomically, h]

/-- An atomic edit that fails leaves the tree as it was. -/
theorem eq_of_atomically_eq_error {e : Edit α} {t left : Tree} {cause : Error}
    (h : atomically e t = .error cause left) : left = t := by
  unfold atomically at h
  split at h
  · exact absurd h (by simp)
  · exact ((EStateM.Result.error.injEq ..).mp h).2.symm

end Edit

end FlatSelect
