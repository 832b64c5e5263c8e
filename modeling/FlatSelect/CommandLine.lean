import FlatSelect.Expr.Text
import FlatSelect.Pipeline
import FlatSelect.Settings.Toml
import FlatSelect.Text.Blank

/-!
# The command line

One run reads settings, a query and views from files, inlines the views, normalizes the query and
prints it. What the files hold is given here as texts, `none` where there is no such file, so a run
is a function. The first fault ends it: settings come first, then the query, then the views in
order, and only then is anything done with them.
-/

namespace FlatSelect

namespace CommandLine

/-- What is to be printed. -/
inductive Emit where
  /-- The statement. -/
  | sql
  /-- The outline of the normalized query. -/
  | tree
  /-- The normalized query as JSON. -/
  | json
deriving DecidableEq, Repr

/-- What a run is given. -/
structure Request where
  query : Option String
  views : List (Option String)
  /-- The settings, if a file of them was named. -/
  settings : Option (Option String)
  emit : Emit

/-- A file that a query is read from. -/
inductive Source where
  | query
  /-- One of the views, counted from zero. -/
  | view (index : Nat)
deriving DecidableEq, Repr

/-- Why a run prints nothing. -/
inductive Failure where
  /-- There is no such file, or it holds no query. -/
  | unreadable (source : Source)
  | error (cause : Error)
deriving DecidableEq, Repr

/-- What the settings make of the grammar of flat selects. -/
def pipeline : Option (Option String) → Except Error Pipeline
  | none => .ok .standard
  | some none => .error (.invalidSettings .unreadable)
  | some (some text) => do
    let settings ← Settings.ofToml text
    Pipeline.make .flatSelect settings

/-- The tree that a file holds. -/
def load (source : Source) (content : Option String) : Except Failure Tree :=
  match content.bind Expr.ofText? with
  | none => .error (.unreadable source)
  | some e => (Tree.ofExpr e).mapError .error

/-- The trees that files of views hold, the first of them being view number `index`. -/
def loadViews (index : Nat) : List (Option String) → Except Failure (List Tree)
  | [] => .ok []
  | content :: rest => do
    let view ← load (.view index) content
    let views ← loadViews (index + 1) rest
    return view :: views

/-- What is printed of a normalized tree. -/
def print (p : Pipeline) (t : Tree) : Emit → Except Error String
  | .sql => p.sql t
  | .tree => .ok (Text.trimEnd t.outline)
  | .json => .ok t.toExpr.prettyText

/-- One run. -/
def run (r : Request) : Except Failure String := do
  let p ← (pipeline r.settings).mapError .error
  let query ← load .query r.query
  let views ← loadViews 0 r.views
  let (_, inlined) ← ((Edit.inlineAll views).result query).mapError .error
  let (_, normal) ← (p.normalize.result inlined).mapError .error
  (print p normal r.emit).mapError .error

/-! ### Arguments -/

/-- The files that a run is asked to read, and what it is asked to print. -/
structure Arguments where
  query : Option String
  views : List String
  settings : Option String
  emit : Emit

namespace Arguments

/-- Before any argument. -/
def none : Arguments where
  query := .none
  views := []
  settings := .none
  emit := .sql

/-- The word for what is to be printed. -/
def emit? : String → Option Emit
  | "sql" => some .sql
  | "tree" => some .tree
  | "json" => some .json
  | _ => .none

/-- The arguments with one option more, each of them at most once but for views. -/
def option? (a : Arguments) (option value : String) : Option Arguments :=
  match option with
  | "--tree" => if a.query.isSome then .none else some { a with query := some value }
  | "--view" => some { a with views := a.views ++ [value] }
  | "--config" => if a.settings.isSome then .none else some { a with settings := some value }
  | "--emit" => (emit? value).map fun emit => { a with emit := emit }
  | "--log-level" => some a
  | _ => .none

/-- The arguments that words spell: pairs of an option and its value. -/
def parse? (a : Arguments) : List String → Option Arguments
  | [] => if a.query.isSome then some a else .none
  | option :: value :: rest => (a.option? option value).bind fun a => a.parse? rest
  | _ => .none

end Arguments

end CommandLine

end FlatSelect
