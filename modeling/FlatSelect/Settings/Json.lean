import FlatSelect.Expr.Json
import FlatSelect.Settings

/-!
# Settings as JSON

Settings are an object with a field for each setting that is chosen, and no other fields.
-/

namespace FlatSelect

namespace Settings

/-- Settings are written with all their fields. -/
def toJson (s : Settings) : Json :=
  .record
    [("root_kinds", .arr (s.rootKinds.map Kind.toJson)),
      ("max_lifts", .nat s.maxLifts),
      ("alias_join_branches", .bool s.aliasJoinBranches)]

/-- The kinds in an array. -/
def kindsOfJson? (room : Nat) (json : Json) : Option (List Kind) :=
  json.asItems?.bind fun items => items.mapM (Kind.ofJson? room)

namespace Choices

/-- The choices that the fields of an object make. -/
def ofFields? (room : Nat) : Choices → List (Option String × Json) → Option Choices
  | c, [] => some c
  | _, (.none, _) :: _ => .none
  | c, (some setting, json) :: rest =>
    (c.choose? setting (kindsOfJson? room json) json.asNat? json.asBool?).bind fun c =>
      ofFields? room c rest

end Choices

/-- The settings that a value is. They need not be valid. -/
def ofJson? (room : Nat) : Json → Option Settings
  | .obj fields => (Choices.ofFields? room .none fields).map Choices.settings
  | _ => none

end Settings

end FlatSelect
