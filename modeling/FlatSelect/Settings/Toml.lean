import FlatSelect.Settings
import FlatSelect.Toml.Reader

/-!
# Settings as a document

A document of settings assigns to each setting that is chosen. A kind is written as its name, or as
a table with that name for its only key and nothing in it; so the kinds for the root may also be
written as an array of tables at the end of the document.
-/

namespace FlatSelect

namespace Toml

namespace Value

/-- Whether a value has nothing in it. -/
def isEmpty : Value → Bool
  | array [] => true
  | table [] => true
  | _ => false

/-- The kind that a value names. -/
def asKind? : Value → Option Kind
  | text word => Kind.ofName? word
  | table [([word], content)] => if content.isEmpty then Kind.ofName? word else none
  | _ => none

/-- The kinds in an array of them. -/
def asKinds? : Value → Option (List Kind)
  | array items => items.mapM asKind?
  | _ => none

/-- The number that an integer is, if it is not negative. -/
def asNat? : Value → Option Nat
  | integer (.ofNat n) => some n
  | _ => none

/-- The truth value that a value is. -/
def asBool? : Value → Option Bool
  | boolean b => some b
  | _ => none

end Value

end Toml

namespace Settings

/-- The kinds for the root in an array of tables, from its first heading on. -/
def kindsOfTables? : List Toml.Statement → Option (List Kind)
  | [] => some []
  | .arrayHeading ["root_kinds"] :: .assignment [word] content :: rest =>
    if content.isEmpty then
      (Kind.ofName? word).bind fun kind => (kindsOfTables? rest).map (kind :: ·)
    else none
  | .arrayHeading ["root_kinds"] :: .heading ["root_kinds", word] :: rest =>
    (Kind.ofName? word).bind fun kind => (kindsOfTables? rest).map (kind :: ·)
  | _ => none

namespace Choices

/-- The choices that the statements of a document make. -/
def ofStatements? : Choices → List Toml.Statement → Option Choices
  | c, [] => some c
  | c, .assignment [setting] v :: rest =>
    (c.choose? setting v.asKinds? v.asNat? v.asBool?).bind fun c => ofStatements? c rest
  | c, tables => c.choose? "root_kinds" (kindsOfTables? tables) .none .none

end Choices

/-- The valid settings that a document holds. -/
def ofToml (text : String) : Except Error Settings :=
  match (Toml.ofText? text).bind (Choices.ofStatements? .none) with
  | none => .error (.invalidSettings .unreadable)
  | some choices => choices.settings.validate.map fun _ => choices.settings

end Settings

end FlatSelect
