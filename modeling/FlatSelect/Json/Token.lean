import FlatSelect.Text.Digit

/-!
# Tokens of JSON texts

A text is scanned character by character into punctuation, quoted texts, numbers and words. What the
scanner has to remember between two characters is its mode. A number or a word ends at the first
character that cannot go on with it, which is then looked at again as the start of something else.
-/

namespace FlatSelect

namespace Json

/-- The smallest parts of a text. -/
inductive Token where
  | beginArray
  | endArray
  | beginObject
  | endObject
  | colon
  | comma
  | null
  | bool (value : Bool)
  | num (digits : String)
  | str (text : Option String)
deriving DecidableEq, Repr

/-! ### Quoted texts -/

/-- A part of a quoted text: a character, or a unit of UTF-16 written as four hexadecimal digits. -/
inductive Piece where
  | char (c : Char)
  | unit (n : Nat)
deriving DecidableEq, Repr

/-- Whether a unit is the first half of a pair. -/
def isHigh (n : Nat) : Bool :=
  0xD800 ≤ n && n < 0xDC00

/-- Whether a unit is the second half of a pair. -/
def isLow (n : Nat) : Bool :=
  0xDC00 ≤ n && n < 0xE000

/-- The characters of a quoted text. Units that are halves have to come in pairs. -/
def characters? : List Piece → Option (List Char)
  | [] => some []
  | .char c :: rest => (characters? rest).map (c :: ·)
  | .unit n :: .unit m :: rest =>
    if isHigh n then
      if isLow m then
        (characters? rest).map (Char.ofNat (0x10000 + (n - 0xD800) * 0x400 + (m - 0xDC00)) :: ·)
      else none
    else if isLow n then none
    else (characters? (.unit m :: rest)).map (Char.ofNat n :: ·)
  | .unit n :: rest =>
    if isHigh n || isLow n then none else (characters? rest).map (Char.ofNat n :: ·)

/-- The character that a short escape stands for. -/
def shortEscape? : Char → Option Char
  | '"' => some '"'
  | '\\' => some '\\'
  | '/' => some '/'
  | 'b' => some '\x08'
  | 'f' => some '\x0c'
  | 'n' => some '\n'
  | 'r' => some '\r'
  | 't' => some '\t'
  | _ => none

/-! ### Numbers and words -/

/-- The characters that numbers are made of. -/
def isNumeric (c : Char) : Bool :=
  c.isDigit || c = '-' || c = '+' || c = '.' || c = 'e' || c = 'E'

/-- Whether a number may end so: in nothing or in an exponent. -/
def isExponent : List Char → Bool
  | [] => true
  | e :: cs =>
    let digits := match cs with
      | '+' :: rest | '-' :: rest => rest
      | rest => rest
    (e = 'e' || e = 'E') && !digits.isEmpty && digits.all Char.isDigit

/-- Whether a number may end so: in an exponent, or in a fraction and maybe an exponent. -/
def isFraction : List Char → Bool
  | '.' :: cs => !(cs.takeWhile Char.isDigit).isEmpty && isExponent (cs.dropWhile Char.isDigit)
  | cs => isExponent cs

/-- Whether characters spell a number: a sign or none, digits without an idle zero in front, and
what may follow. -/
def isNumber (cs : List Char) : Bool :=
  let unsigned := match cs with
    | '-' :: rest => rest
    | rest => rest
  match unsigned with
  | '0' :: rest => isFraction rest
  | rest => !(rest.takeWhile Char.isDigit).isEmpty && isFraction (rest.dropWhile Char.isDigit)

/-- The token that a run of numeric characters is. -/
def number? (cs : List Char) : Option Token :=
  if isNumber cs then some (.num (String.ofList cs)) else none

/-- The token that a run of letters is. -/
def word? (cs : List Char) : Option Token :=
  if cs = "null".toList then some .null
  else if cs = "true".toList then some (.bool true)
  else if cs = "false".toList then some (.bool false)
  else none

/-! ### Scanning -/

/-- What has been read of a token that is not complete. Runs are kept with the last first. -/
inductive Mode where
  | between
  | word (run : List Char)
  | number (run : List Char)
  | quoted (run : List Piece)
  | escape (run : List Piece)
  /-- Within the four digits of a unit: how many were read, and their value. -/
  | unit (run : List Piece) (count value : Nat)
deriving DecidableEq, Repr

/-- The tokens that are complete, the last first, and the mode. -/
structure Scan where
  done : List Token
  mode : Mode
deriving DecidableEq, Repr

namespace Scan

/-- Reads a character that no token is open for. -/
def start (done : List Token) (c : Char) : Option Scan :=
  match c with
  | ' ' | '\t' | '\n' | '\r' => some ⟨done, .between⟩
  | '[' => some ⟨.beginArray :: done, .between⟩
  | ']' => some ⟨.endArray :: done, .between⟩
  | '\x7b' => some ⟨.beginObject :: done, .between⟩
  | '\x7d' => some ⟨.endObject :: done, .between⟩
  | ':' => some ⟨.colon :: done, .between⟩
  | ',' => some ⟨.comma :: done, .between⟩
  | '"' => some ⟨done, .quoted []⟩
  | c =>
    if c.isDigit || c = '-' then some ⟨done, .number [c]⟩
    else if c.isLower then some ⟨done, .word [c]⟩
    else none

/-- Reads one character. Control characters may not stand in a quoted text. -/
def step (s : Scan) (c : Char) : Option Scan :=
  match s.mode with
  | .between => start s.done c
  | .word run =>
    if c.isLower then some ⟨s.done, .word (c :: run)⟩
    else (word? run.reverse).bind fun token => start (token :: s.done) c
  | .number run =>
    if isNumeric c then some ⟨s.done, .number (c :: run)⟩
    else (number? run.reverse).bind fun token => start (token :: s.done) c
  | .quoted run =>
    if c = '"' then
      some ⟨.str ((characters? run.reverse).map String.ofList) :: s.done, .between⟩
    else if c = '\\' then some ⟨s.done, .escape run⟩
    else if c.toNat < 0x20 then none
    else some ⟨s.done, .quoted (.char c :: run)⟩
  | .escape run =>
    if c = 'u' then some ⟨s.done, .unit run 0 0⟩
    else (shortEscape? c).map fun escaped => ⟨s.done, .quoted (.char escaped :: run)⟩
  | .unit run count value =>
    (Text.digit? c).map fun digit =>
      if count = 3 then ⟨s.done, .quoted (.unit (16 * value + digit) :: run)⟩
      else ⟨s.done, .unit run (count + 1) (16 * value + digit)⟩

/-- The tokens of a text that ends here. -/
def finish? (s : Scan) : Option (List Token) :=
  match s.mode with
  | .between => some s.done.reverse
  | .word run => (word? run.reverse).map fun token => (token :: s.done).reverse
  | .number run => (number? run.reverse).map fun token => (token :: s.done).reverse
  | _ => none

end Scan

/-- The tokens of a text. -/
def tokens? (text : List Char) : Option (List Token) :=
  (text.foldlM Scan.step ⟨[], .between⟩).bind Scan.finish?

end Json

end FlatSelect
