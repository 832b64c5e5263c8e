import FlatSelect.Kind

/-!
# Sets of kinds

A grammar says what may stand in a slot by a set of kinds. A set is its membership test, so two
sets with the same members are equal (`KindSet.ext`), and its listing follows the order of the
kinds whatever order it was built in.
-/

namespace FlatSelect

/-- A set of kinds, given by which of them it contains. -/
structure KindSet where
  /-- Whether a kind is a member. -/
  contains : Kind → Bool

namespace KindSet

@[ext] theorem ext {s t : KindSet} (h : ∀ kind, s.contains kind = t.contains kind) : s = t := by
  cases s
  cases t
  exact congrArg mk (funext h)

/-- The set with exactly the listed members. -/
def ofList (kinds : List Kind) : KindSet where
  contains kind := kinds.contains kind

/-- The set without members. -/
def empty : KindSet where
  contains _ := false

/-- The set of what is in either set. -/
def union (s t : KindSet) : KindSet where
  contains kind := s.contains kind || t.contains kind

instance : EmptyCollection KindSet := ⟨empty⟩

instance : Union KindSet := ⟨union⟩

@[simp] theorem contains_ofList (kinds : List Kind) (kind : Kind) :
    (ofList kinds).contains kind = kinds.contains kind := rfl

@[simp] theorem contains_empty (kind : Kind) : (∅ : KindSet).contains kind = false := rfl

@[simp] theorem contains_union (s t : KindSet) (kind : Kind) :
    (s ∪ t).contains kind = (s.contains kind || t.contains kind) := rfl

/-- The members, in the order of the kinds. -/
def toList (s : KindSet) : List Kind :=
  Kind.all.filter s.contains

@[simp] theorem mem_toList {s : KindSet} {kind : Kind} :
    kind ∈ s.toList ↔ s.contains kind = true := by
  simp [toList, Kind.mem_all]

theorem ofList_toList (s : KindSet) : ofList s.toList = s := by
  ext kind
  by_cases h : s.contains kind = true <;> simp_all

/-- Sets are compared by their listings. -/
instance : DecidableEq KindSet := fun s t =>
  decidable_of_iff (s.toList = t.toList)
    ⟨fun h => by rw [← ofList_toList s, h, ofList_toList t], fun h => h ▸ rfl⟩

/-- Whether there is no member. -/
def isEmpty (s : KindSet) : Bool :=
  s.toList.isEmpty

/-- The members' names between braces, set apart by commas. -/
def text (s : KindSet) : String :=
  "\x7b" ++ ", ".intercalate (s.toList.map Kind.name) ++ "\x7d"

/-- The relations that rows come from: stored ones and joins. -/
def inputs : KindSet :=
  ofList [.input1, .input2]

/-- The comparisons of two operands. -/
def comparisons : KindSet :=
  ofList [.equals, .notEqual, .less, .greater, .lessEq, .greaterEq]

/-- The connectives of predicates. -/
def connectives : KindSet :=
  ofList [.and, .or, .not]

/-- The operators of predicates. -/
def booleans : KindSet :=
  comparisons ∪ connectives

/-- Leaves alone. -/
def constants : KindSet :=
  ofList [.constant]

/-- What may stand in a predicate: an operator or a leaf. -/
def predicates : KindSet :=
  booleans ∪ constants

@[simp] theorem contains_booleans (kind : Kind) : booleans.contains kind = kind.isBoolean := by
  cases kind <;> rfl

end KindSet

end FlatSelect
