import FlatSelect.Proofs.Wildcards
import Mathlib.Data.List.Flatten
import Mathlib.Data.List.Forall2
import Mathlib.Data.List.Induction

/-!
# What two lists of columns select together

A list selects a name if one of its entries is that name, or a wildcard that covers it. Two lists
are merged entry by entry, every outer one with every inner one, so what the merged list selects is
a matter of two entries (`Columns.exists_unify?`, `Columns.picks_of_unify?`).

Whatever both lists select, the merged one selects as well, unless it is only by two wildcards of
which neither covers the other, and its entries are in the order of the outer list
(`Columns.intersect_complete_in_order`).

The other way round there is a gap. Of two wildcards the one that the other covers is kept, and for
that it is read as a text. So `?` covers `*`, a text of one character, and `*` is kept for the
narrower of the two. The merged list selects nothing but what both lists select exactly if all such
misread wildcards do no harm (`Columns.intersect_leaks_nothing_iff`), as is always the case without
question marks (`Columns.selects_both`).
-/

namespace FlatSelect

namespace Columns

/-- A name without stars, question marks and line feeds. -/
structure PlainName (name : String) : Prop where
  not_wildcard : Glob.isWildcard name = false
  one_line : '\n' ∉ name.toList

/-- Two wildcards of which neither covers the other. -/
structure Incomparable (a b : String) : Prop where
  left : Glob.isWildcard a = true
  right : Glob.isWildcard b = true
  not_covers : Glob.covers a b = false
  not_covered : Glob.covers b a = false

/-- A wildcard covers another one, but not without a question mark that takes a star. -/
def Misreads (a b : String) : Prop :=
  Glob.covers a b = true ∧ ¬ Glob.Contains a b

variable {a b entry name : String} {inner outer : List String}

theorem picks_of_not_wildcard (h : Glob.isWildcard entry = false) :
    Picks entry name ↔ entry = name := by
  simp [Picks, h]

theorem picks_of_wildcard (hname : Glob.isWildcard name = false)
    (hentry : Glob.isWildcard entry = true) :
    Picks entry name ↔ Glob.covers entry name = true := by
  have hne : entry ≠ name := by
    rintro rfl
    rw [hname] at hentry
    cases hentry
  simp [Picks, hne, hentry]

/-! ### Two entries -/

/-- A column stays if the other entry selects it. -/
theorem unify?_of_column (ha : Glob.isWildcard a = false) :
    unify? a b = if Picks b a then some a else none := by
  cases hb : Glob.isWildcard b with
  | false => simp [unify?, ha, hb, picks_of_not_wildcard hb, eq_comm]
  | true => simp [unify?, ha, hb, picks_of_wildcard ha hb]

/-- A wildcard gives way to a column that it selects. -/
theorem unify?_of_wildcard_column (ha : Glob.isWildcard a = true)
    (hb : Glob.isWildcard b = false) : unify? a b = if Picks a b then some b else none := by
  simp [unify?, ha, hb, picks_of_wildcard hb ha]

/-- Of two wildcards the one is kept that the other covers. -/
theorem unify?_of_wildcards (ha : Glob.isWildcard a = true) (hb : Glob.isWildcard b = true) :
    unify? a b =
      if Glob.covers b a then some a else if Glob.covers a b then some b else none := by
  simp [unify?, ha, hb]

theorem eq_or_eq_of_unify? (h : unify? a b = some entry) : entry = a ∨ entry = b := by
  rw [unify?] at h
  grind

/-- What is selected by two entries is selected by what they come to, if they come to anything. -/
theorem exists_unify? (ha : Picks a name) (hb : Picks b name) (hab : ¬ Incomparable a b) :
    ∃ entry, unify? a b = some entry ∧ Picks entry name := by
  cases hwild : Glob.isWildcard a with
  | false =>
      obtain rfl := (picks_of_not_wildcard hwild).mp ha
      exact ⟨a, by rw [unify?_of_column hwild, if_pos hb], ha⟩
  | true =>
      cases hwild' : Glob.isWildcard b with
      | false =>
          obtain rfl := (picks_of_not_wildcard hwild').mp hb
          exact ⟨b, by rw [unify?_of_wildcard_column hwild hwild', if_pos ha], hb⟩
      | true =>
          rw [unify?_of_wildcards hwild hwild']
          cases hba : Glob.covers b a with
          | true => exact ⟨a, rfl, ha⟩
          | false =>
              cases hcovers : Glob.covers a b with
              | true => exact ⟨b, rfl, hb⟩
              | false => exact absurd ⟨hwild, hwild', hcovers, hba⟩ hab

theorem mem_intersect :
    entry ∈ intersect inner outer ↔ ∃ o ∈ outer, ∃ i ∈ inner, unify? o i = some entry := by
  simp [intersect]

/-! ### Nothing that only one list selects -/

/-- A wildcard covers all that one covers which it covers itself, unless it misreads that one. -/
theorem covers_or_misreads (h : Glob.covers b a = true) (hname : Glob.covers a name = true) :
    Glob.covers b name = true ∨ Misreads b a := by
  by_cases hcontains : Glob.Contains b a
  · exact .inl (hcontains.covers hname)
  · exact .inr ⟨h, hcontains⟩

/-- What two entries come to selects nothing but what both select, unless a wildcard is misread. -/
theorem picks_of_unify? (h : unify? a b = some entry) (hname : Glob.isWildcard name = false)
    (hentry : Picks entry name) :
    Picks a name ∧ Picks b name ∨
      Glob.isWildcard a = true ∧ Glob.isWildcard b = true ∧
        (Misreads b a ∧ Glob.covers a name = true ∨
          Glob.covers b a = false ∧ Misreads a b ∧ Glob.covers b name = true) := by
  cases ha : Glob.isWildcard a with
  | false =>
      rw [unify?_of_column ha, Option.ite_none_right_eq_some] at h
      obtain ⟨hpicks, ⟨⟩⟩ := h
      obtain rfl := (picks_of_not_wildcard ha).mp hentry
      exact .inl ⟨hentry, hpicks⟩
  | true =>
      cases hb : Glob.isWildcard b with
      | false =>
          rw [unify?_of_wildcard_column ha hb, Option.ite_none_right_eq_some] at h
          obtain ⟨hpicks, ⟨⟩⟩ := h
          obtain rfl := (picks_of_not_wildcard hb).mp hentry
          exact .inl ⟨hpicks, hentry⟩
      | true =>
          rw [unify?_of_wildcards ha hb] at h
          cases hba : Glob.covers b a with
          | true =>
              rw [hba, if_pos rfl] at h
              cases h
              have hcovers := (picks_of_wildcard hname ha).mp hentry
              rcases covers_or_misreads hba hcovers with hcovers' | hmisreads
              · exact .inl ⟨hentry, .inr ⟨hb, hcovers'⟩⟩
              · exact .inr ⟨rfl, rfl, .inl ⟨hmisreads, hcovers⟩⟩
          | false =>
              rw [hba, if_neg Bool.false_ne_true, Option.ite_none_right_eq_some] at h
              obtain ⟨hab, ⟨⟩⟩ := h
              have hcovers := (picks_of_wildcard hname hb).mp hentry
              rcases covers_or_misreads hab hcovers with hcovers' | hmisreads
              · exact .inl ⟨.inr ⟨ha, hcovers'⟩, hentry⟩
              · exact .inr ⟨rfl, rfl, .inr ⟨rfl, hmisreads, hcovers⟩⟩

/-- Two lists select together nothing but what both of them select, exactly if this holds for all
wildcards that are kept because another one misreads them: what they cover has to be selected by
some entry of the other list. -/
theorem intersect_leaks_nothing_iff (inner outer : List String) :
    (∀ name, PlainName name → Selects (intersect inner outer) name →
      Selects inner name ∧ Selects outer name) ↔
    ∀ o ∈ outer, ∀ i ∈ inner, Glob.isWildcard o = true → Glob.isWildcard i = true →
      ∀ name, PlainName name →
        (Misreads i o → Glob.covers o name = true → Selects inner name) ∧
        (Glob.covers i o = false → Misreads o i → Glob.covers i name = true →
          Selects outer name) := by
  constructor
  · intro hall o ho i hi hwild hwild' name hname
    have hunify := unify?_of_wildcards hwild hwild'
    constructor
    · intro hmisreads hcovers
      rw [hmisreads.1, if_pos rfl] at hunify
      exact (hall name hname
        ⟨o, mem_intersect.mpr ⟨o, ho, i, hi, hunify⟩, .inr ⟨hwild, hcovers⟩⟩).1
    · intro hio hmisreads hcovers
      rw [hio, if_neg Bool.false_ne_true, hmisreads.1, if_pos rfl] at hunify
      exact (hall name hname
        ⟨i, mem_intersect.mpr ⟨o, ho, i, hi, hunify⟩, .inr ⟨hwild', hcovers⟩⟩).2
  · rintro hkept name hname ⟨entry, hentry, hpicks⟩
    obtain ⟨o, ho, i, hi, hunify⟩ := mem_intersect.mp hentry
    rcases picks_of_unify? hunify hname.not_wildcard hpicks with
      ⟨hpicks, hpicks'⟩ | ⟨hwild, hwild', ⟨hmisreads, hcovers⟩ | ⟨hio, hmisreads, hcovers⟩⟩
    · exact ⟨⟨i, hi, hpicks'⟩, o, ho, hpicks⟩
    · exact ⟨(hkept o ho i hi hwild hwild' name hname).1 hmisreads hcovers,
        o, ho, .inr ⟨hwild, hcovers⟩⟩
    · exact ⟨⟨i, hi, .inr ⟨hwild', hcovers⟩⟩,
        (hkept o ho i hi hwild hwild' name hname).2 hio hmisreads hcovers⟩

/-- The star is kept for the narrower of a star and a question mark. -/
theorem intersect_leaks_name :
    PlainName "ab" ∧ Selects (intersect ["?"] ["*"]) "ab" ∧ ¬ Selects ["?"] "ab" :=
  ⟨⟨by decide, by decide⟩, by decide +kernel, by decide +kernel⟩

/-- Lists without question marks select together nothing but what both of them select. -/
theorem selects_both (hinner : ∀ entry ∈ inner, '?' ∉ entry.toList)
    (houter : ∀ entry ∈ outer, '?' ∉ entry.toList) (hname : Glob.isWildcard name = false)
    (h : Selects (intersect inner outer) name) : Selects inner name ∧ Selects outer name := by
  obtain ⟨entry, hentry, hpicks⟩ := h
  obtain ⟨o, ho, i, hi, hunify⟩ := mem_intersect.mp hentry
  rcases picks_of_unify? hunify hname hpicks with
    ⟨hpicks, hpicks'⟩ | ⟨_, _, ⟨hmisreads, _⟩ | ⟨_, hmisreads, _⟩⟩
  · exact ⟨⟨i, hi, hpicks'⟩, o, ho, hpicks⟩
  · exact absurd (Glob.contains_of_covers (hinner i hi) hmisreads.1) hmisreads.2
  · exact absurd (Glob.contains_of_covers (houter o ho) hmisreads.1) hmisreads.2

/-! ### All that both lists select, in order -/

/-- Without repeats, what several lists have in a row is made of a block for each of them. -/
theorem exists_blocks {α : Type} (f : α → List String) (xs : List α) :
    ∃ blocks : List (List String), blocks.flatten = (xs.flatMap f).eraseDups ∧
      List.Forall₂ (fun x block => block ⊆ f x) xs blocks ∧ blocks.Pairwise List.Disjoint := by
  induction xs generalizing f with
  | nil => exact ⟨[], rfl, .nil, .nil⟩
  | cons x rest ih =>
      obtain ⟨blocks, hflatten, hblocks, hdisjoint⟩ := ih fun y => (f y).removeAll (f x)
      refine ⟨(f x).eraseDups :: blocks, ?_, .cons ?_ ?_, .cons ?_ hdisjoint⟩
      · rw [List.flatten_cons, hflatten, List.flatMap_cons, List.eraseDups_append]
        simp only [List.removeAll, List.filter_flatMap]
      · intro entry hentry
        exact List.mem_eraseDups.mp hentry
      · refine hblocks.imp fun y block hblock entry hentry => ?_
        exact List.mem_of_mem_filter (hblock hentry)
      · intro block hblock entry hentry hlater
        have hmem := hflatten ▸ List.mem_flatten_of_mem hblock hlater
        obtain ⟨y, _, hy⟩ := List.mem_flatMap.mp (List.mem_eraseDups.mp hmem)
        have hnew := (List.mem_filter.mp hy).2
        simp only [Bool.not_eq_true', List.elem_eq_mem, decide_eq_false_iff_not] at hnew
        exact hnew (List.mem_eraseDups.mp hentry)

theorem nodup_eraseDups (entries : List String) : entries.eraseDups.Nodup := by
  induction entries using List.reverseRecOn with
  | nil => exact .nil
  | append_singleton entries entry ih =>
      rw [List.eraseDups_append]
      by_cases h : entry ∈ entries
      · simpa [List.removeAll, h] using ih
      · have hnew : ∀ other ∈ entries.eraseDups, other ≠ entry := by
          rintro other hother rfl
          exact h (List.mem_eraseDups.mp hother)
        simpa [List.removeAll, h, List.nodup_append, List.eraseDups_cons, ih] using hnew

/-- Merging two lists keeps the order of the outer one and loses nothing that can be said by one of
the entries: the result has no repeats, its entries are entries of the two lists, it selects all
that an outer and an inner entry select, incomparable wildcards apart, and it is made of blocks, one
for each outer entry in turn, that have only what this entry and some inner one come to, and nothing
that an earlier block has. -/
theorem intersect_complete_in_order (inner outer : List String) :
    (intersect inner outer).Nodup ∧
    (∀ entry ∈ intersect inner outer, entry ∈ inner ∨ entry ∈ outer) ∧
    (∀ name, ∀ o ∈ outer, ∀ i ∈ inner, Picks o name → Picks i name → ¬ Incomparable o i →
      Selects (intersect inner outer) name) ∧
    ∃ blocks : List (List String), blocks.flatten = intersect inner outer ∧
      List.Forall₂ (fun o block => ∀ entry ∈ block, ∃ i ∈ inner, unify? o i = some entry)
        outer blocks ∧
      blocks.Pairwise List.Disjoint := by
  refine ⟨nodup_eraseDups _, ?_, ?_, ?_⟩
  · intro entry hentry
    obtain ⟨o, ho, i, hi, hunify⟩ := mem_intersect.mp hentry
    rcases eq_or_eq_of_unify? hunify with rfl | rfl
    · exact .inr ho
    · exact .inl hi
  · intro name o ho i hi hpicks hpicks' hcomparable
    obtain ⟨entry, hunify, hentry⟩ := exists_unify? hpicks hpicks' hcomparable
    exact ⟨entry, mem_intersect.mpr ⟨o, ho, i, hi, hunify⟩, hentry⟩
  · obtain ⟨blocks, hflatten, hblocks, hdisjoint⟩ :=
      exists_blocks (fun o => inner.filterMap (unify? o)) outer
    refine ⟨blocks, hflatten, hblocks.imp fun o block hblock entry hentry => ?_, hdisjoint⟩
    exact List.mem_filterMap.mp (hblock hentry)

/-- The narrower of two wildcards is kept, and selects what both select. -/
theorem intersect_complete_in_order_narrower :
    Picks "*" "B.x" ∧ Picks "B.*" "B.x" ∧ ¬ Incomparable "*" "B.*" ∧
      Selects (intersect ["a", "B.*"] ["*", "a"]) "B.x" := by
  have houter : Picks "*" "B.x" := by decide +kernel
  have hinner : Picks "B.*" "B.x" := by decide +kernel
  have hcomparable : ¬ Incomparable "*" "B.*" := fun h => absurd h.not_covers (by decide +kernel)
  exact ⟨houter, hinner, hcomparable, (intersect_complete_in_order _ _).2.2.1 "B.x" "*" (by simp)
    "B.*" (by simp) houter hinner hcomparable⟩

end Columns

end FlatSelect
