/-!
# Documents of settings

A document in TOML is a list of statements: a key with its value, or the heading of a table. Keys
are paths of names. The values here are those that settings can be made of; a document with a
fraction or a date is no document of settings.
-/

namespace FlatSelect

namespace Toml

/-- A value. -/
inductive Value where
  | text (s : String)
  | integer (n : Int)
  | boolean (b : Bool)
  | array (items : List Value)
  /-- A table in braces, its entries in order. -/
  | table (entries : List (List String × Value))

/-- A statement. -/
inductive Statement where
  | assignment (key : List String) (value : Value)
  | heading (key : List String)
  /-- The heading of one more table in an array of tables. -/
  | arrayHeading (key : List String)

end Toml

end FlatSelect
