import FlatSelect.Error
import FlatSelect.Kind.Set

/-!
# Settings

What a user may choose: the kinds that may stand at the root of a query, how many lifts a
normalization may take, and whether branches of a join are printed with their aliases. Lifted
columns refer to branches by alias, so aliases are printed unless that is turned off.
-/

namespace FlatSelect

/-- The choices of a user. -/
structure Settings where
  rootKinds : List Kind
  maxLifts : Nat
  aliasJoinBranches : Bool
deriving DecidableEq, Repr

namespace Settings

/-- The settings of a user who chooses nothing. -/
def standard : Settings where
  rootKinds := [.assign]
  maxLifts := 10000
  aliasJoinBranches := true

/-- Settings have to name a kind for the root and to allow a lift. -/
def validate (s : Settings) : Except Error Unit :=
  if s.rootKinds.isEmpty then .error (.invalidSettings .noRootKinds)
  else if s.maxLifts = 0 then .error (.invalidSettings .noLifts)
  else .ok ()

/-- The kinds that may stand at the root, as a set. -/
def roots (s : Settings) : KindSet :=
  .ofList s.rootKinds

/-- The greatest number of lifts that can be asked for, and one more. -/
def liftsBound : Nat :=
  UInt64.size

/-- What a document of settings chooses, each setting at most once. -/
structure Choices where
  rootKinds : Option (List Kind)
  maxLifts : Option Nat
  aliasJoinBranches : Option Bool

namespace Choices

/-- A document that chooses nothing. -/
def none : Choices where
  rootKinds := .none
  maxLifts := .none
  aliasJoinBranches := .none

/-- The same choices with one more, if the setting is known, not chosen yet, and `kinds`, `number`
or `truth` is something that it can be. -/
def choose? (c : Choices) (setting : String) (kinds : Option (List Kind)) (number : Option Nat)
    (truth : Option Bool) : Option Choices :=
  if setting = "root_kinds" then
    if c.rootKinds.isSome then .none
    else kinds.map fun kinds => { c with rootKinds := some kinds }
  else if setting = "max_lifts" then
    if c.maxLifts.isSome then .none
    else (number.filter (· < liftsBound)).map fun number => { c with maxLifts := some number }
  else if setting = "alias_join_branches" then
    if c.aliasJoinBranches.isSome then .none
    else truth.map fun truth => { c with aliasJoinBranches := some truth }
  else .none

/-- The settings that choices make: what is not chosen is standard. -/
def settings (c : Choices) : Settings where
  rootKinds := c.rootKinds.getD standard.rootKinds
  maxLifts := c.maxLifts.getD standard.maxLifts
  aliasJoinBranches := c.aliasJoinBranches.getD standard.aliasJoinBranches

end Choices

end Settings

end FlatSelect
