import FlatSelect.Json.Basic
import FlatSelect.Json.Token

/-!
# Reading JSON

Tokens are read one by one into values. Arrays and objects that are open wait on a stack, so values
may be nested to any depth. What may come next is part of the state: nothing but an item or the end
after an opening bracket, and no end after a comma.
-/

namespace FlatSelect

namespace Json

/-- An array or an object that waits for a value. What it has already is kept last first. -/
inductive Frame where
  | items (before : List Json)
  | field (before : List (Option String × Json)) (key : Option String)

/-- What has been read, and what has to come. -/
inductive Parse where
  /-- A value has to come. -/
  | needValue (stack : List Frame)
  /-- An array was opened: a value or its end has to come. -/
  | needItemOrEnd (stack : List Frame)
  /-- An object was opened: a key or its end has to come. -/
  | needKeyOrEnd (stack : List Frame)
  /-- A key has to come. -/
  | needKey (before : List (Option String × Json)) (stack : List Frame)
  /-- A colon has to come. -/
  | needColon (before : List (Option String × Json)) (key : Option String) (stack : List Frame)
  /-- A value was read: the end of what it stands in, or a comma, has to come. -/
  | complete (value : Json) (stack : List Frame)

namespace Parse

/-- Reads the first token of a value. -/
def start (stack : List Frame) : Token → Option Parse
  | .null => some (.complete .null stack)
  | .bool value => some (.complete (.bool value) stack)
  | .num digits => some (.complete (.num digits) stack)
  | .str text => some (.complete (.str text) stack)
  | .beginArray => some (.needItemOrEnd stack)
  | .beginObject => some (.needKeyOrEnd stack)
  | _ => none

/-- Reads the first token after a value in an array or an object. -/
def continue? (value : Json) : Frame → List Frame → Token → Option Parse
  | .items before, stack, .comma => some (.needValue (.items (value :: before) :: stack))
  | .items before, stack, .endArray => some (.complete (.arr (value :: before).reverse) stack)
  | .field before key, stack, .comma => some (.needKey ((key, value) :: before) stack)
  | .field before key, stack, .endObject =>
    some (.complete (.obj ((key, value) :: before).reverse) stack)
  | _, _, _ => none

/-- Reads one token. -/
def step : Parse → Token → Option Parse
  | .needValue stack, token => start stack token
  | .needItemOrEnd stack, .endArray => some (.complete (.arr []) stack)
  | .needItemOrEnd stack, token => start (.items [] :: stack) token
  | .needKeyOrEnd stack, .endObject => some (.complete (.obj []) stack)
  | .needKeyOrEnd stack, .str key => some (.needColon [] key stack)
  | .needKey before stack, .str key => some (.needColon before key stack)
  | .needColon before key stack, .colon => some (.needValue (.field before key :: stack))
  | .complete value (frame :: stack), token => continue? value frame stack token
  | _, _ => none

/-- The value of a text that ends here. -/
def finish? : Parse → Option Json
  | .complete value [] => some value
  | _ => none

end Parse

/-- The value that tokens spell. -/
def ofTokens? (tokens : List Token) : Option Json :=
  (tokens.foldlM Parse.step (.needValue [])).bind Parse.finish?

/-- The value that a text spells, with nothing but blanks around it. -/
def ofText? (text : String) : Option Json :=
  (tokens? text.toList).bind ofTokens?

end Json

end FlatSelect
