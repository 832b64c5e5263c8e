import FlatSelect.Column.Glob

/-!
# Searching for wildcards

Where there is a library of regular expressions, a pattern can be left to it: the pattern is written
as an expression between two anchors, a star as any run of characters, a question mark as any
character and everything else quoted, and the expression is searched for in the text
(`Search.Engine.covers`).

The library is a parameter. What is taken of it is what such libraries document of the few elements
that a pattern is written with. An expression of these is found in a text if it matches somewhere in
it (`Search.found`), and that is what an engine answers if it does not refuse the expression
(`Search.Engine.Documented`).
-/

namespace FlatSelect

namespace Search

/-- What matches one character. -/
inductive Single where
  /-- Any character but a line feed. -/
  | any
  | char (c : Char)
deriving DecidableEq, Repr

/-- What an expression is a sequence of. -/
inductive Element where
  /-- The beginning of the text. -/
  | start
  /-- The end of the text. -/
  | stop
  | one (single : Single)
  /-- Any number of characters, each of which `single` matches. -/
  | many (single : Single)
deriving DecidableEq, Repr

/-- Whether a character is matched. -/
def Single.takes : Single → Char → Bool
  | any, c => c ≠ '\n'
  | char c, d => d = c

/-- Whether some run of characters that `single` matches can be followed by what `next` asks for.
`atStart` says whether nothing of the text stands before. -/
def run (single : Single) (next : Bool → List Char → Bool) : Bool → List Char → Bool
  | atStart, [] => next atStart []
  | atStart, c :: text => next atStart (c :: text) || (single.takes c && run single next false text)

/-- Whether an expression matches a text from its first character on. `atStart` says whether nothing
of the text stands before that. -/
def matchesFront : List Element → Bool → List Char → Bool
  | [], _, _ => true
  | .start :: elements, atStart, text => atStart && matchesFront elements atStart text
  | .stop :: elements, atStart, text => text.isEmpty && matchesFront elements atStart text
  | .one _ :: _, _, [] => false
  | .one single :: elements, _, c :: text => single.takes c && matchesFront elements false text
  | .many single :: elements, atStart, text => run single (matchesFront elements) atStart text

/-- Whether an expression matches at some place of a text. `atStart` says whether the first place is
the beginning of the whole. -/
def foundIn (elements : List Element) : Bool → List Char → Bool
  | atStart, [] => matchesFront elements atStart []
  | atStart, c :: text => matchesFront elements atStart (c :: text) || foundIn elements false text

/-- Whether an expression is found in a text. -/
def found (elements : List Element) (text : String) : Bool :=
  foundIn elements true text.toList

/-- A library of regular expressions. -/
structure Engine where
  /-- An expression that matches a character, whatever it means in expressions. -/
  quote : Char → String
  /-- Reads an expression. The answer tells the texts in which it is found from the others, or says
  why the expression is refused. -/
  compile : String → Except String (String → Bool)

namespace Engine

/-- How a single character is written. -/
def writeSingle (e : Engine) : Single → String
  | .any => "."
  | .char c => e.quote c

/-- How an element is written. -/
def writeElement (e : Engine) : Element → String
  | .start => "^"
  | .stop => "$"
  | .one single => e.writeSingle single
  | .many single => e.writeSingle single ++ "*"

/-- How an expression is written. -/
def write (e : Engine) (elements : List Element) : String :=
  String.join (elements.map e.writeElement)

/-- Expressions that an engine does not refuse it searches for. -/
structure Documented (e : Engine) : Prop where
  finds_eq {elements : List Element} {finds : String → Bool}
    (h : e.compile (e.write elements) = .ok finds) (text : String) :
    finds text = found elements text

/-- What is written for a character of a pattern. -/
def writePiece (e : Engine) : Char → String
  | '*' => ".*"
  | '?' => "."
  | c => e.quote c

/-- The expression that is written for a pattern. -/
def expression (e : Engine) (pattern : String) : String :=
  "^" ++ String.join (pattern.toList.map e.writePiece) ++ "$"

/-- Whether a pattern covers a text, according to an engine. -/
def covers (e : Engine) (pattern text : String) : Except String Bool :=
  match e.compile (e.expression pattern) with
  | .ok finds => .ok (finds text)
  | .error cause => .error ("glob '" ++ pattern ++ "': " ++ cause)

end Engine

end Search

end FlatSelect
