import FlatSelect.Text.Digit

/-!
# JSON values

A value as it was written: the fields of an object keep their order and may repeat, and a number
keeps its digits. A quoted text whose escapes pair up to no characters is kept as one without a
text, since a reader may pass over it.
-/

namespace FlatSelect

/-- A JSON value. -/
inductive Json where
  | null
  | bool (value : Bool)
  /-- A number, as it was written. -/
  | num (digits : String)
  /-- A quoted text, or `none` where its escapes stand for no characters. -/
  | str (text : Option String)
  | arr (items : List Json)
  /-- The fields in order, each with its key. -/
  | obj (fields : List (Option String × Json))

namespace Json

/-- A text. -/
def text (s : String) : Json :=
  .str (some s)

/-- A natural number. -/
def nat (n : Nat) : Json :=
  .num (toString n)

/-- An object with the given keys. -/
def record (fields : List (String × Json)) : Json :=
  .obj (fields.map fun (key, value) => (some key, value))

/-- The text of a value that is one. -/
def asText? : Json → Option String
  | .str text => text
  | _ => none

/-- The truth value of a value that is one. -/
def asBool? : Json → Option Bool
  | .bool value => some value
  | _ => none

/-- The items of an array. -/
def asItems? : Json → Option (List Json)
  | .arr items => some items
  | _ => none

/-- The texts in an array of texts. -/
def asTexts? (value : Json) : Option (List String) :=
  value.asItems?.bind fun items => items.mapM asText?

/-- The natural number that a value is, if it is written without sign, fraction and exponent. -/
def asNat? : Json → Option Nat
  | .num digits => Text.number? 10 digits.toList
  | _ => none

end Json

end FlatSelect
