import FlatSelect.Expr.Json
import FlatSelect.Json.Printer
import FlatSelect.Json.Reader

/-!
# Queries as text

A file that holds a query holds its JSON. What is read from a text may be nested to a fixed depth,
so that no text makes a reader descend without end; writing knows no such limit.
-/

namespace FlatSelect

namespace Expr

/-- How many arrays and objects of a text may be open at the same time. -/
def nestingLimit : Nat :=
  127

/-- The query that a text holds. -/
def ofText? (text : String) : Option Expr :=
  (Json.ofText? text).bind (ofJson? true nestingLimit)

/-- A query on one line, without blanks. -/
def compactText (e : Expr) : String :=
  e.toJson.compact

/-- A query over several lines. -/
def prettyText (e : Expr) : String :=
  e.toJson.pretty

end Expr

end FlatSelect
