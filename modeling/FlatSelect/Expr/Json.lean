import FlatSelect.Expr
import FlatSelect.Json.Basic

/-!
# Queries as JSON

A query is an object with the fields `kind`, `value` and `children`. A field that has nothing to say
is left out, and other fields are passed over. An array of up to three items in that order is read
as a query too. Whether the two names of a rename or a derived column may be an array is up to the
caller: `lists` says so.

Arrays and objects that are read may be nested to some depth only, the `room`. What is passed over
may be nested to any depth.
-/

namespace FlatSelect

namespace Kind

/-- A kind is written as its name. -/
def toJson (kind : Kind) : Json :=
  .text kind.name

/-- The kind that a value names: by its name, or by an object with that name for its only key. -/
def ofJson? (room : Nat) : Json → Option Kind
  | .str text => text.bind ofName?
  | .obj [(key, .null)] => if room = 0 then none else key.bind ofName?
  | _ => none

end Kind

namespace Value

/-- A value is written as an object with its form for the only key. -/
def toJson : Value → Json
  | name text => .record [("name", .text text)]
  | columns entries => .record [("columns", .arr (entries.map .text))]
  | rename new old => .record [("rename", .record [("new", .text new), ("old", .text old)])]
  | derived asName source =>
    .record [("derived", .record [("alias", .text asName), ("source", .text source)])]

/-- The texts of the two fields `first` and `second`, each of which has to be there once. What has
been read of them is `a` and `b`. -/
def pairOfFields? (first second : String) (a b : Option String) :
    List (Option String × Json) → Option (String × String)
  | [] => a.bind fun a => b.map fun b => (a, b)
  | (none, _) :: _ => none
  | (some key, json) :: rest =>
    if key = first then
      if a.isSome then none
      else json.asText?.bind fun text => pairOfFields? first second (some text) b rest
    else if key = second then
      if b.isSome then none
      else json.asText?.bind fun text => pairOfFields? first second a (some text) rest
    else pairOfFields? first second a b rest

/-- Two texts, as the fields of an object or as the items of an array. -/
def pair? (first second : String) (lists : Bool) (room : Nat) (json : Json) :
    Option (String × String) :=
  if room = 0 then none
  else
    match lists, json with
    | _, .obj fields => pairOfFields? first second none none fields
    | true, .arr [a, b] => a.asText?.bind fun a => b.asText?.map fun b => (a, b)
    | _, _ => none

/-- The texts in an array. -/
def texts? (room : Nat) (json : Json) : Option (List String) :=
  if room = 0 then none else json.asTexts?

/-- The value whose form is the only key of an object. -/
def ofField? (form : String) (lists : Bool) (room : Nat) (json : Json) : Option Value :=
  if form = "name" then json.asText?.map name
  else if form = "columns" then (texts? room json).map columns
  else if form = "rename" then
    (pair? "new" "old" lists room json).map fun (new, old) => rename new old
  else if form = "derived" then
    (pair? "alias" "source" lists room json).map fun (asName, source) => derived asName source
  else none

/-- The value that an object with one field is. -/
def ofJson? (lists : Bool) (room : Nat) : Json → Option Value
  | .obj [(some form, json)] => if room = 0 then none else ofField? form lists (room - 1) json
  | _ => none

/-- A value that may be null. -/
def ofNullable? (lists : Bool) (room : Nat) : Json → Option (Option Value)
  | .null => some none
  | json => (ofJson? lists room json).map some

end Value

namespace Expr

mutual
/-- A query is written with its fields in order. -/
def toJson : Expr → Json
  | .node kind value children =>
    .record <|
      [("kind", kind.toJson)] ++
      value.toList.map (fun v => ("value", v.toJson)) ++
      if children.isEmpty then [] else [("children", .arr (toJsons children))]
/-- Each of several queries. -/
def toJsons : List Expr → List Json
  | [] => []
  | e :: es => e.toJson :: toJsons es
end

/-- What has been read of the fields of a query. -/
structure Fields where
  kind : Option Kind
  value : Option (Option Value)
  children : Option (List Expr)

namespace Fields

/-- Before any field. -/
def unread : Fields where
  kind := none
  value := none
  children := none

/-- The query that the fields make, of which the kind has to be there. -/
def expr? (fields : Fields) : Option Expr :=
  fields.kind.map fun kind => .node kind (fields.value.getD none) (fields.children.getD [])

end Fields

mutual
/-- The query that a value is. -/
def ofJson? (lists : Bool) (room : Nat) : Json → Option Expr
  | .obj fields => if room = 0 then none else ofFields? lists (room - 1) .unread fields
  | .arr items => if room = 0 then none else ofItems? lists (room - 1) items
  | _ => none
/-- Each of several queries. -/
def ofJsons? (lists : Bool) (room : Nat) : List Json → Option (List Expr)
  | [] => some []
  | json :: rest => do
    let e ← ofJson? lists room json
    let es ← ofJsons? lists room rest
    return e :: es
/-- The query whose kind, value and children are the items of an array. -/
def ofItems? (lists : Bool) (room : Nat) : List Json → Option Expr
  | [kind] => do
    let kind ← Kind.ofJson? room kind
    return .node kind none []
  | [kind, value] => do
    let kind ← Kind.ofJson? room kind
    let value ← Value.ofNullable? lists room value
    return .node kind value []
  | [kind, value, children] => do
    let kind ← Kind.ofJson? room kind
    let value ← Value.ofNullable? lists room value
    let children ← childrenOf? lists room children
    return .node kind value children
  | _ => none
/-- Reads on in the fields of a query. A field may not come twice. -/
def ofFields? (lists : Bool) (room : Nat) (seen : Fields) :
    List (Option String × Json) → Option Expr
  | [] => seen.expr?
  | (none, _) :: _ => none
  | (some key, json) :: rest =>
    if key = "kind" then
      if seen.kind.isSome then none else do
        let kind ← Kind.ofJson? room json
        ofFields? lists room { seen with kind := some kind } rest
    else if key = "value" then
      if seen.value.isSome then none else do
        let value ← Value.ofNullable? lists room json
        ofFields? lists room { seen with value := some value } rest
    else if key = "children" then
      if seen.children.isSome then none else do
        let children ← childrenOf? lists room json
        ofFields? lists room { seen with children := some children } rest
    else ofFields? lists room seen rest
/-- The queries in an array. -/
def childrenOf? (lists : Bool) (room : Nat) : Json → Option (List Expr)
  | .arr items => if room = 0 then none else ofJsons? lists (room - 1) items
  | _ => none
end

end Expr

end FlatSelect
