import FlatSelect.Proofs.Layers
import Mathlib.Data.List.Induction
import Mathlib.Data.List.Nodup

/-!
# Columns and their names

Layers over a stored relation show columns under names. A rename shows a column under another name,
a derived column shows one column more, a projection hides those that it does not list. Read down
the layers, every name stands for a column of the relation or for a literal (`Layer.resolve`).

A query is well scoped if each layer speaks of columns that the layers below it show. Texts that no
layer uses for a column are literals, and stand for themselves (`Layer.Scoped.resolve_literal`).
-/

namespace FlatSelect

namespace Layer

/-- The name of a column after `old` has become `new`. -/
def renamed (old new name : String) : String :=
  if name = old then new else name

/-- The names that layers show columns under, over a relation with the columns `base`. -/
def names (base : List String) : List Layer → List String
  | [] => base
  | rename new old :: below => (names base below).map (renamed old new)
  | extraColumn asName _ :: below => names base below ++ [asName]
  | projection entries :: _ => entries
  | condition _ :: below => names base below

/-- What a name stands for: a column of the relation, or a literal. -/
def resolve : List Layer → String → String
  | [], name => name
  | rename new old :: below, name => resolve below (renamed new old name)
  | extraColumn asName source :: below, name =>
    resolve below (renamed asName source name)
  | projection _ :: below, name => resolve below name
  | condition _ :: below, name => resolve below name

/-- Whether a name is that of a derived column. -/
def derives : List Layer → String → Bool
  | [], _ => false
  | rename new old :: below, name => derives below (renamed new old name)
  | extraColumn asName _ :: below, name => name = asName || derives below name
  | projection _ :: below, name => derives below name
  | condition _ :: below, name => derives below name

/-- The predicates of the conditions, the outermost first, with their columns resolved. -/
def filters (base : List String) : List Layer → List Formula
  | [] => []
  | condition predicate :: below =>
    (predicate.map fun leaf => if leaf ∈ names base below then resolve below leaf else leaf) ::
      filters base below
  | rename _ _ :: below => filters base below
  | extraColumn _ _ :: below => filters base below
  | projection _ :: below => filters base below

/-- The texts that a layer uses for columns. -/
def columnNames : Layer → List String
  | rename new old => [new, old]
  | extraColumn asName _ => [asName]
  | projection entries => entries
  | condition _ => []

/-- The texts that are used for columns, by the relation or by layers. -/
def used (base : List String) (layers : List Layer) : List String :=
  base ++ layers.flatMap columnNames

/-- A layer makes sense above columns of the given names. A text that is not in `columns` is a
literal. -/
def Fits (columns names : List String) : Layer → Prop
  | rename new old => old ∈ names ∧ new ∉ names
  | extraColumn asName source => asName ∉ names ∧ (source ∈ names ∨ source ∉ columns)
  | projection entries => entries.Nodup ∧ ∀ entry ∈ entries, entry ∈ names
  | condition predicate => ∀ leaf ∈ predicate.leaves, leaf ∈ names ∨ leaf ∉ columns

instance (columns names : List String) (layer : Layer) : Decidable (layer.Fits columns names) :=
  match layer with
  | rename new old => inferInstanceAs (Decidable (old ∈ names ∧ new ∉ names))
  | extraColumn asName source =>
    inferInstanceAs (Decidable (asName ∉ names ∧ (source ∈ names ∨ source ∉ columns)))
  | projection entries =>
    inferInstanceAs (Decidable (entries.Nodup ∧ ∀ entry ∈ entries, entry ∈ names))
  | condition predicate =>
    inferInstanceAs (Decidable (∀ leaf ∈ predicate.leaves, leaf ∈ names ∨ leaf ∉ columns))

/-- Every layer makes sense above those below it. -/
def AllFit (columns base : List String) : List Layer → Prop
  | [] => True
  | layer :: below => layer.Fits columns (names base below) ∧ AllFit columns base below

instance decidableAllFit (columns base : List String) :
    (layers : List Layer) → Decidable (AllFit columns base layers)
  | [] => inferInstanceAs (Decidable True)
  | layer :: below =>
    have := decidableAllFit columns base below
    inferInstanceAs (Decidable (layer.Fits columns (names base below) ∧ AllFit columns base below))

/-- Layers are well scoped, in a query that uses the texts in `columns` for columns. None of these
is a wildcard. -/
structure Scoped (columns base : List String) (layers : List Layer) : Prop where
  allFit : AllFit columns base layers
  used_subset : ∀ text ∈ used base layers, text ∈ columns
  plain : ∀ text ∈ columns, Glob.isWildcard text = false

/-- The layers of a whole query are well scoped. -/
def WellScoped (base : List String) (layers : List Layer) : Prop :=
  AllFit (used base layers) base layers ∧
    ∀ text ∈ used base layers, Glob.isWildcard text = false

instance (base : List String) (layers : List Layer) : Decidable (WellScoped base layers) :=
  inferInstanceAs (Decidable (_ ∧ _))

variable {columns base : List String} {layer : Layer} {layers below : List Layer}

theorem WellScoped.scoped (h : WellScoped base layers) : Scoped (used base layers) base layers :=
  ⟨h.1, fun _ h => h, h.2⟩

theorem mem_used_cons {text : String} :
    text ∈ used base (layer :: below) ↔ text ∈ layer.columnNames ∨ text ∈ used base below := by
  simp only [used, List.mem_append, List.flatMap_cons]
  exact or_left_comm

/-- The names of columns are used for columns. -/
theorem mem_used_of_mem_names {name : String} (h : name ∈ names base layers) :
    name ∈ used base layers := by
  induction layers generalizing name with
  | nil => simpa [used, names] using h
  | cons layer below ih =>
      rw [mem_used_cons]
      cases layer with
      | rename new old =>
          obtain ⟨found, hfound, rfl⟩ := List.mem_map.mp h
          rw [renamed]
          split
          · exact .inl (by simp [columnNames])
          · exact .inr (ih hfound)
      | extraColumn asName source =>
          rcases List.mem_append.mp h with h | h
          · exact .inr (ih h)
          · exact .inl h
      | projection entries => exact .inl h
      | condition predicate => exact .inr (ih h)

theorem renamed_self (old new : String) : renamed old new old = new :=
  if_pos rfl

theorem renamed_of_ne {old name : String} (h : name ≠ old) (new : String) :
    renamed old new name = name :=
  if_neg h

theorem renamed_renamed {old name : String} (h : name ≠ old) (new : String) :
    renamed old new (renamed new old name) = name := by
  by_cases heq : name = new
  · rw [heq, renamed_self, renamed_self]
  · rw [renamed_of_ne heq, renamed_of_ne h]

theorem map_renamed_of_notMem {old : String} {names : List String} (h : old ∉ names)
    (new : String) :
    names.map (renamed old new) = names :=
  (List.map_congr_left fun _ hname => renamed_of_ne (ne_of_mem_of_not_mem hname h) new).trans
    (List.map_id names)

theorem eq_or_mem_of_mem_rename {new old name : String}
    (h : name ∈ names base (rename new old :: below)) :
    name = new ∨ name ∈ names base below ∧ name ≠ old := by
  obtain ⟨found, hfound, rfl⟩ := List.mem_map.mp h
  by_cases heq : found = old
  · exact .inl (by rw [heq, renamed_self])
  · rw [renamed_of_ne heq]
    exact .inr ⟨hfound, heq⟩

namespace Scoped

theorem fits (h : Scoped columns base (layer :: below)) : layer.Fits columns (names base below) :=
  h.allFit.1

theorem tail (h : Scoped columns base (layer :: below)) : Scoped columns base below :=
  ⟨h.allFit.2, fun text hmem => h.used_subset text (mem_used_cons.mpr (.inr hmem)), h.plain⟩

theorem plain_names (h : Scoped columns base layers) {name : String}
    (hname : name ∈ names base layers) : Glob.isWildcard name = false :=
  h.plain name (h.used_subset name (mem_used_of_mem_names hname))

/-- A literal stands for itself. -/
theorem resolve_literal (h : Scoped columns base layers) {text : String} (htext : text ∉ columns) :
    resolve layers text = text := by
  induction layers with
  | nil => rfl
  | cons layer below ih =>
      have hne : ∀ name ∈ layer.columnNames, text ≠ name := by
        rintro name hname rfl
        exact htext (h.used_subset text (mem_used_cons.mpr (.inl hname)))
      cases layer with
      | rename new old =>
          rw [resolve, renamed_of_ne (hne new (by simp [columnNames]))]
          exact ih h.tail
      | extraColumn asName source =>
          rw [resolve, renamed_of_ne (hne asName (by simp [columnNames]))]
          exact ih h.tail
      | projection | condition => exact ih h.tail

theorem nodup_names (h : Scoped columns base layers) (hbase : base.Nodup) :
    (names base layers).Nodup := by
  induction layers with
  | nil => exact hbase
  | cons layer below ih =>
      cases layer with
      | rename new old =>
          apply (ih h.tail).map_on
          intro a ha b hb heq
          rw [← renamed_renamed (ne_of_mem_of_not_mem ha h.fits.2) old, heq,
            renamed_renamed (ne_of_mem_of_not_mem hb h.fits.2) old]
      | extraColumn asName source =>
          refine (ih h.tail).append (List.nodup_singleton _) ?_
          rw [List.disjoint_singleton]
          exact h.fits.1
      | projection entries => exact h.fits.1
      | condition predicate => exact ih h.tail

end Scoped

theorem filter_ne_of_notMem {names : List String} {name : String} (h : name ∉ names) :
    names.filter (· ≠ name) = names :=
  List.filter_eq_self.mpr fun _ hmem => decide_eq_true (ne_of_mem_of_not_mem hmem h)

theorem perm_cons_filter_ne {names : List String} {name : String} (hnodup : names.Nodup)
    (h : name ∈ names) : names.Perm (name :: names.filter (· ≠ name)) := by
  have herase : names.erase name = names.filter (· ≠ name) := by
    rw [hnodup.erase_eq_filter]
    exact List.filter_congr fun other _ => by rw [Bool.eq_iff_iff]; simp
  exact herase ▸ List.perm_cons_erase h

/-- Columns that layers show, each listed once. -/
structure Selects (base : List String) (layers : List Layer) (wanted : List String) : Prop where
  nodup : wanted.Nodup
  subset : ∀ name ∈ wanted, name ∈ names base layers

namespace Selects

variable {wanted : List String} {new old : String}

theorem ne_old (h : Scoped columns base (rename new old :: below))
    (hwanted : Selects base (rename new old :: below) wanted) {name : String}
    (hname : name ∈ wanted) :
    name ≠ old := by
  obtain ⟨hold, hnew⟩ := h.fits
  rcases eq_or_mem_of_mem_rename (hwanted.subset name hname) with rfl | ⟨_, hne⟩
  · exact (ne_of_mem_of_not_mem hold hnew).symm
  · exact hne

/-- Below a rename, the columns have their old names. -/
theorem below_rename (h : Scoped columns base (rename new old :: below))
    (hwanted : Selects base (rename new old :: below) wanted) :
    Selects base below (wanted.map (renamed new old)) := by
  constructor
  · apply hwanted.nodup.map_on
    intro a ha b hb heq
    rw [← renamed_renamed (hwanted.ne_old h ha) new, heq, renamed_renamed (hwanted.ne_old h hb) new]
  · intro name hname
    obtain ⟨found, hfound, rfl⟩ := List.mem_map.mp hname
    rcases eq_or_mem_of_mem_rename (hwanted.subset found hfound) with rfl | ⟨hbelow, _⟩
    · rw [renamed_self]
      exact h.fits.1
    · rwa [renamed_of_ne (ne_of_mem_of_not_mem hbelow h.fits.2)]

theorem below_unwanted_rename (h : Scoped columns base (rename new old :: below))
    (hwanted : Selects base (rename new old :: below) wanted) (hnew : new ∉ wanted) :
    Selects base below wanted :=
  map_renamed_of_notMem hnew old ▸ hwanted.below_rename h

theorem below_extraColumn {asName source : String}
    (hwanted : Selects base (extraColumn asName source :: below) wanted) :
    Selects base below (wanted.filter (· ≠ asName)) := by
  constructor
  · exact hwanted.nodup.filter _
  · intro name hname
    obtain ⟨hmem, hne⟩ := List.mem_filter.mp hname
    rcases List.mem_append.mp (hwanted.subset name hmem) with h | h
    · exact h
    · exact absurd (List.mem_singleton.mp h) (of_decide_eq_true hne)

theorem below_unwanted_extraColumn {asName source : String}
    (hwanted : Selects base (extraColumn asName source :: below) wanted) (hname : asName ∉ wanted) :
    Selects base below wanted :=
  filter_ne_of_notMem hname ▸ hwanted.below_extraColumn

theorem below_projection {entries : List String}
    (h : Scoped columns base (projection entries :: below))
    (hwanted : Selects base (projection entries :: below) wanted) : Selects base below wanted :=
  ⟨hwanted.nodup, fun name hname => h.fits.2 name (hwanted.subset name hname)⟩

theorem below_condition {predicate : Formula}
    (hwanted : Selects base (condition predicate :: below) wanted) : Selects base below wanted :=
  ⟨hwanted.nodup, hwanted.subset⟩

end Selects

end Layer

namespace Formula

variable {p : Formula} {f g : String → String}

theorem map_map (p : Formula) (f g : String → String) :
    (p.map f).map g = p.map fun name => g (f name) := by
  induction p with
  | name | not | binary => simp_all [map]

theorem map_congr (h : ∀ leaf ∈ p.leaves, f leaf = g leaf) : p.map f = p.map g := by
  induction p with
  | name | not | binary => simp_all [map, leaves]

theorem map_id (p : Formula) : p.map id = p := by
  induction p with
  | name | not | binary => simp_all [map]

/-- All of several predicates, if there are any. -/
def conjunction : List Formula → Option Formula
  | [] => none
  | first :: rest => some (rest.foldl both first)

theorem conjunction_concat (ps : List Formula) (p : Formula) :
    conjunction (ps ++ [p]) = some ((conjunction ps).elim p (both · p)) := by
  cases ps with
  | nil => rfl
  | cons first rest => simp [conjunction]

theorem conjunction_map (ps : List Formula) (f : String → String) :
    conjunction (ps.map (·.map f)) = (conjunction ps).map (·.map f) := by
  induction ps using List.reverseRecOn with
  | nil => rfl
  | append_singleton ps p ih =>
      rw [List.map_append, List.map_singleton, conjunction_concat, ih, conjunction_concat]
      cases conjunction ps <;> rfl

theorem mem_leaves_conjunction (ps : List Formula) (leaf : String) :
    (conjunction ps).any (leaf ∈ ·.leaves) = ps.any (leaf ∈ ·.leaves) := by
  induction ps using List.reverseRecOn with
  | nil => rfl
  | append_singleton ps p ih =>
      rw [conjunction_concat, List.any_append, ← ih]
      cases conjunction ps <;> simp [both, leaves]

end Formula

end FlatSelect
