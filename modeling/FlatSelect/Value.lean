/-!
# Values of constants

A constant leaf holds one of four values: a name (of a result, a relation, an alias, or the text of
a leaf of a predicate), a list of columns, a pair of names for a rename, or a derived column.
-/

namespace FlatSelect

/-- What a constant leaf holds. -/
inductive Value where
  | name (text : String)
  | columns (entries : List String)
  /-- Column `old` is from here on called `new`. -/
  | rename (new old : String)
  /-- Column `asName` is bound to `source`, a column or a literal. -/
  | derived (asName source : String)
deriving DecidableEq, Repr

namespace Value

/-- The text of a name. -/
def asName? : Value → Option String
  | name text => some text
  | _ => none

/-- The entries of a list of columns. -/
def asColumns? : Value → Option (List String)
  | columns entries => some entries
  | _ => none

/-- The new and the old name of a rename. -/
def asRename? : Value → Option (String × String)
  | rename new old => some (new, old)
  | _ => none

/-- The alias and the source of a derived column. -/
def asDerived? : Value → Option (String × String)
  | derived asName source => some (asName, source)
  | _ => none

/-- The word that messages use for the form of a value. -/
def form : Value → String
  | name _ => "name"
  | columns _ => "column list"
  | rename _ _ => "rename pair"
  | derived _ _ => "derived column"

/-- A value as it stands in an outline. -/
def text : Value → String
  | name text => text
  | columns entries => "[" ++ ", ".intercalate entries ++ "]"
  | rename new old => new ++ " <- " ++ old
  | derived asName source => asName ++ " := " ++ source

/-- A name changed by `f`; any other value, and a name that `f` leaves alone, is kept. -/
def mapName? (f : String → Option String) : Value → Option Value
  | name text => (f text).map name
  | _ => none

end Value

end FlatSelect
