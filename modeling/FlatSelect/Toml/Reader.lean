import FlatSelect.Text.Digit
import FlatSelect.Toml.Document

/-!
# Reading documents of settings

Each reader takes the characters that are left and gives what it has read with the characters that
are left then, or nothing where the text is not what it reads. Values may be nested, so their
readers get a bound on the steps that they may take; twice the length of the text is enough.
-/

namespace FlatSelect

namespace Toml

/-! ### Blanks and comments -/

/-- The blanks within a line. -/
def isBlank (c : Char) : Bool :=
  c = ' ' || c = '\t'

/-- The characters that may stand in comments and in literal texts. -/
def isPlain (c : Char) : Bool :=
  c = '\t' || (0x20 ≤ c.toNat && c.toNat ≠ 0x7f)

/-- Passes over blanks, line ends and comments. -/
def skipGaps (inComment : Bool) : List Char → Option (List Char)
  | [] => some []
  | '\n' :: cs => skipGaps false cs
  | '\r' :: '\n' :: cs => skipGaps false cs
  | c :: cs =>
    if inComment then
      if isPlain c then skipGaps true cs else none
    else if isBlank c then skipGaps false cs
    else if c = '#' then skipGaps true cs
    else some (c :: cs)

/-- The end of a line: blanks, a comment maybe, and then a line feed or the end of the text. -/
def lineEnd (cs : List Char) : Option (List Char) :=
  let cs := cs.dropWhile isBlank
  let rest := match cs with
    | '#' :: comment => comment.dropWhile isPlain
    | cs => cs
  match rest with
  | [] => some []
  | '\n' :: cs => some cs
  | '\r' :: '\n' :: cs => some cs
  | _ => none

/-! ### Texts -/

/-- The character of a code point, if it has one. -/
def character? (n : Nat) : Option Char :=
  if h : n.isValidChar then some (Char.ofNatAux n h) else none

/-- The character that hexadecimal digits stand for. -/
def escaped? (digits : List Char) : Option Char :=
  (Text.number? 16 digits).bind character?

/-- The character that a short escape stands for. -/
def shortEscape? : Char → Option Char
  | '"' => some '"'
  | '\\' => some '\\'
  | 'b' => some '\x08'
  | 'e' => some '\x1b'
  | 'f' => some '\x0c'
  | 'n' => some '\n'
  | 'r' => some '\r'
  | 't' => some '\t'
  | _ => none

/-- Puts a character before what a reader has read. -/
def before (c : Char) : List Char × List Char → List Char × List Char
  | (text, rest) => (c :: text, rest)

/-- The rest of a text in double quotes. -/
def quoted : List Char → Option (List Char × List Char)
  | '"' :: rest => some ([], rest)
  | '\\' :: 'x' :: a :: b :: rest =>
    (escaped? [a, b]).bind fun c => (quoted rest).map (before c)
  | '\\' :: 'u' :: a :: b :: c :: d :: rest =>
    (escaped? [a, b, c, d]).bind fun c => (quoted rest).map (before c)
  | '\\' :: 'U' :: a :: b :: c :: d :: e :: f :: g :: h :: rest =>
    (escaped? [a, b, c, d, e, f, g, h]).bind fun c => (quoted rest).map (before c)
  | '\\' :: c :: rest => (shortEscape? c).bind fun c => (quoted rest).map (before c)
  | c :: rest => if isPlain c && c ≠ '\\' then (quoted rest).map (before c) else none
  | [] => none

/-- The rest of a text in single quotes. -/
def literal : List Char → Option (List Char × List Char)
  | '\'' :: rest => some ([], rest)
  | c :: rest => if isPlain c then (literal rest).map (before c) else none
  | [] => none

/-- Whether a line ends here, but for blanks. -/
def endsLine (cs : List Char) : Bool :=
  match cs.dropWhile isBlank with
  | '\n' :: _ => true
  | '\r' :: '\n' :: _ => true
  | _ => false

/-- The rest of a text in three double quotes. Up to two quotes may stand before the closing ones.
After a backslash at the end of a line, blanks and line ends are passed over: `gap` says whether
they are. -/
def longQuoted (gap : Bool) : List Char → Option (List Char × List Char)
  | '"' :: '"' :: '"' :: '"' :: '"' :: rest => some (['"', '"'], rest)
  | '"' :: '"' :: '"' :: '"' :: rest => some (['"'], rest)
  | '"' :: '"' :: '"' :: rest => some ([], rest)
  | '\\' :: 'x' :: a :: b :: rest =>
    (escaped? [a, b]).bind fun c => (longQuoted false rest).map (before c)
  | '\\' :: 'u' :: a :: b :: c :: d :: rest =>
    (escaped? [a, b, c, d]).bind fun c => (longQuoted false rest).map (before c)
  | '\\' :: 'U' :: a :: b :: c :: d :: e :: f :: g :: h :: rest =>
    (escaped? [a, b, c, d, e, f, g, h]).bind fun c => (longQuoted false rest).map (before c)
  | '\\' :: c :: rest =>
    if endsLine (c :: rest) then longQuoted true (c :: rest)
    else (shortEscape? c).bind fun c => (longQuoted false rest).map (before c)
  | '\r' :: '\n' :: rest =>
    if gap then longQuoted true rest else (longQuoted false rest).map (before '\n')
  | c :: rest =>
    if gap && (isBlank c || c = '\n') then longQuoted true rest
    else if (isPlain c || c = '\n') && c ≠ '\\' then (longQuoted false rest).map (before c)
    else none
  | [] => none

/-- The rest of a text in three single quotes. Up to two may stand before the closing ones. -/
def longLiteral : List Char → Option (List Char × List Char)
  | '\'' :: '\'' :: '\'' :: '\'' :: '\'' :: rest => some (['\'', '\''], rest)
  | '\'' :: '\'' :: '\'' :: '\'' :: rest => some (['\''], rest)
  | '\'' :: '\'' :: '\'' :: rest => some ([], rest)
  | '\r' :: '\n' :: rest => (longLiteral rest).map (before '\n')
  | c :: rest => if isPlain c || c = '\n' then (longLiteral rest).map (before c) else none
  | [] => none

/-- What follows the opening of a long text. A line end right after it does not count. -/
def afterOpening : List Char → List Char
  | '\n' :: rest => rest
  | '\r' :: '\n' :: rest => rest
  | cs => cs

/-! ### Words and numbers -/

/-- The characters of keys without quotes. -/
def isBare (c : Char) : Bool :=
  c.isAlphanum || c = '_' || c = '-'

/-- The characters of numbers and of the words for truth values. -/
def isWordy (c : Char) : Bool :=
  isBare c || c = '+' || c = '.' || c = ':'

/-- Digits without the underscores between them. -/
def withoutUnderscores? : List Char → Option (List Char)
  | [] => some []
  | '_' :: _ => none
  | c :: '_' :: d :: rest => (withoutUnderscores? (d :: rest)).map (c :: ·)
  | c :: rest => (withoutUnderscores? rest).map (c :: ·)

/-- A natural number in some base, with underscores between digits or without. -/
def natural? (base : Nat) (cs : List Char) : Option Nat :=
  (withoutUnderscores? cs).bind (Text.number? base)

/-- A natural number in base ten. It starts with no idle zero. -/
def decimal? (cs : List Char) : Option Nat :=
  match cs with
  | '0' :: _ :: _ => none
  | cs => natural? 10 cs

/-- An integer. Only those in base ten may have a sign. -/
def integer? (cs : List Char) : Option Int :=
  match cs with
  | '0' :: 'x' :: digits => (natural? 16 digits).map Int.ofNat
  | '0' :: 'o' :: digits => (natural? 8 digits).map Int.ofNat
  | '0' :: 'b' :: digits => (natural? 2 digits).map Int.ofNat
  | '+' :: digits => (decimal? digits).map Int.ofNat
  | '-' :: digits => (decimal? digits).map fun n => -(n : Int)
  | digits => (decimal? digits).map Int.ofNat

/-- A value that is one word. -/
def word? (cs : List Char) : Option Value :=
  if cs = ['t', 'r', 'u', 'e'] then some (.boolean true)
  else if cs = ['f', 'a', 'l', 's', 'e'] then some (.boolean false)
  else (integer? cs).map .integer

/-! ### Keys and values -/

/-- One name of a key: a text in quotes, or a run of letters, digits, underscores and dashes. -/
def name (cs : List Char) : Option (String × List Char) :=
  match cs with
  | '"' :: rest => (quoted rest).map fun (text, rest) => (String.ofList text, rest)
  | '\'' :: rest => (literal rest).map fun (text, rest) => (String.ofList text, rest)
  | cs =>
    let bare := cs.takeWhile isBare
    if bare.isEmpty then none else some (String.ofList bare, cs.dropWhile isBare)

/-- A key: names set apart by points, with blanks around them. -/
def key : Nat → List Char → Option (List String × List Char)
  | 0, _ => none
  | steps + 1, cs => do
    let (first, rest) ← name (cs.dropWhile isBlank)
    match rest.dropWhile isBlank with
    | '.' :: rest => do
      let (names, rest) ← key steps rest
      return (first :: names, rest)
    | rest => return ([first], rest)

mutual
/-- A value. -/
def value : Nat → List Char → Option (Value × List Char)
  | 0, _ => none
  | steps + 1, cs =>
    match cs with
    | '"' :: '"' :: '"' :: rest =>
      (longQuoted false (afterOpening rest)).map fun (text, rest) =>
        (.text (String.ofList text), rest)
    | '"' :: rest => (quoted rest).map fun (text, rest) => (.text (String.ofList text), rest)
    | '\'' :: '\'' :: '\'' :: rest =>
      (longLiteral (afterOpening rest)).map fun (text, rest) => (.text (String.ofList text), rest)
    | '\'' :: rest => (literal rest).map fun (text, rest) => (.text (String.ofList text), rest)
    | '[' :: rest => (items steps rest).map fun (items, rest) => (.array items, rest)
    | '\x7b' :: rest => (entries steps rest).map fun (entries, rest) => (.table entries, rest)
    | cs => (word? (cs.takeWhile isWordy)).map fun v => (v, cs.dropWhile isWordy)
/-- The rest of an array. A comma may follow the last item. -/
def items : Nat → List Char → Option (List Value × List Char)
  | 0, _ => none
  | steps + 1, cs => do
    match ← skipGaps false cs with
    | ']' :: rest => return ([], rest)
    | cs => do
      let (first, rest) ← value steps cs
      match ← skipGaps false rest with
      | ']' :: rest => return ([first], rest)
      | ',' :: rest => do
        let (others, rest) ← items steps rest
        return (first :: others, rest)
      | _ => none
/-- The rest of a table. A comma may follow the last entry. An entry may be spread over lines, on
either side of its equals sign, but the names of its key stand on one line. -/
def entries : Nat → List Char → Option (List (List String × Value) × List Char)
  | 0, _ => none
  | steps + 1, cs => do
    match ← skipGaps false cs with
    | '\x7d' :: rest => return ([], rest)
    | cs => do
      let (names, rest) ← key steps cs
      match ← skipGaps false rest with
      | '=' :: rest => do
        let (first, rest) ← value steps (← skipGaps false rest)
        match ← skipGaps false rest with
        | '\x7d' :: rest => return ([(names, first)], rest)
        | ',' :: rest => do
          let (others, rest) ← entries steps rest
          return ((names, first) :: others, rest)
        | _ => none
      | _ => none
end

/-! ### Statements -/

/-- A statement that starts here, up to the end of its line. -/
def statement (steps : Nat) (cs : List Char) : Option (Statement × List Char) :=
  match cs with
  | '[' :: '[' :: rest => do
    let (names, rest) ← key steps rest
    match rest with
    | ']' :: ']' :: rest => return (.arrayHeading names, ← lineEnd rest)
    | _ => none
  | '[' :: rest => do
    let (names, rest) ← key steps rest
    match rest with
    | ']' :: rest => return (.heading names, ← lineEnd rest)
    | _ => none
  | cs => do
    let (names, rest) ← key steps cs
    match rest with
    | '=' :: rest => do
      let (v, rest) ← value steps (rest.dropWhile isBlank)
      return (.assignment names v, ← lineEnd rest)
    | _ => none

/-- Statements, each on a line, with gaps between them. -/
def statements : Nat → List Char → Option (List Statement)
  | 0, _ => none
  | steps + 1, cs => do
    match ← skipGaps false cs with
    | [] => return []
    | cs => do
      let (first, rest) ← statement (steps + 1) cs
      let others ← statements steps rest
      return first :: others

/-- The statements of a document. A byte order mark at its start is passed over. -/
def ofText? (text : String) : Option (List Statement) :=
  let cs := match text.toList with
    | '\ufeff' :: rest => rest
    | cs => cs
  statements (2 * cs.length + 2) cs

end Toml

end FlatSelect
