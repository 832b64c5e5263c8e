/-!
# Wildcards

A pattern stands for the texts that it covers. A star takes any number of characters, a question
mark exactly one, and neither takes a line feed; every other character takes itself. A text is
covered if the pattern takes the whole of it.

Whether a pattern covers a text is decided for all endings of the text at once, from the last
character of the pattern to the first, so the work is the product of the two lengths however many
stars there are.
-/

namespace FlatSelect

namespace Glob

/-- Whether an entry is a pattern: whether it has a star or a question mark. -/
def isWildcard (entry : String) : Bool :=
  entry.toList.any fun c => c = '*' || c = '?'

/-- The characters that a star or a question mark takes. -/
def takes (c : Char) : Bool :=
  c ≠ '\n'

/-- What a star adds: an ending is covered if it was, or if it starts with a character that the
star takes and what is left is covered. -/
def extendStar : List Char → List Bool → List Bool
  | c :: text, covered :: rest =>
    let longer := extendStar text rest
    (covered || (takes c && longer.headD false)) :: longer
  | _, rest => rest

/-- What a single character adds: an ending is covered if it starts with a character that `one`
accepts and what is left was covered. The empty ending is not. -/
def extendOne (one : Char → Bool) : List Char → List Bool → List Bool
  | c :: text, _ :: rest => (one c && rest.headD false) :: extendOne one text rest
  | _, _ => [false]

/-- For every ending of the text, the text itself first and the empty one last, whether the pattern
covers it. -/
def endings (text : List Char) : List Char → List Bool
  | [] => text.map (fun _ => false) ++ [true]
  | '*' :: pattern => extendStar text (endings text pattern)
  | '?' :: pattern => extendOne takes text (endings text pattern)
  | c :: pattern => extendOne (· = c) text (endings text pattern)

/-- Whether a pattern covers a text. -/
def covers (pattern text : String) : Bool :=
  (endings text.toList pattern.toList).headD false

end Glob

end FlatSelect
