import FlatSelect.Normalization
import FlatSelect.Select.Sql
import FlatSelect.Settings
import FlatSelect.Substitution

/-!
# From views to SQL

A pipeline is a grammar with settings. It inlines views into a query, normalizes the result and
prints it. Each of these either succeeds as a whole or leaves the query as it was.
-/

namespace FlatSelect

/-- A grammar with settings. -/
structure Pipeline where
  grammar : Grammar
  settings : Settings

namespace Pipeline

/-- The grammar of flat selects with the standard settings. -/
def standard : Pipeline where
  grammar := .flatSelect
  settings := .standard

/-- A pipeline of valid settings. -/
def make (grammar : Grammar) (settings : Settings) : Except Error Pipeline :=
  settings.validate.map fun _ => { grammar, settings }

/-- The first deviation of a tree. -/
def deviation? (p : Pipeline) (t : Tree) : Option NodeId :=
  t.deviation? p.grammar p.settings.roots

/-- Whether a tree has no deviation. -/
def conforms (p : Pipeline) (t : Tree) : Bool :=
  t.conforms p.grammar p.settings.roots

/-- Lifts all deviations of a tree. -/
def normalize (p : Pipeline) : Edit Tally :=
  Edit.normalize p.grammar p.settings.roots p.settings.maxLifts

/-- Prints a tree without deviations. -/
def sql (p : Pipeline) (t : Tree) : Except Error String :=
  t.sql p.grammar p.settings.roots p.settings.aliasJoinBranches

/-- Inlines views into a target, normalizes it and prints it. -/
def compose (p : Pipeline) (views : List Tree) : Edit String :=
  Edit.atomically do
    Edit.inlineAll views
    let _ ← p.normalize
    ofExcept (p.sql (← get))

end Pipeline

end FlatSelect
