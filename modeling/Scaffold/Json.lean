/-
# JSON

`Json.read?` reads a JSON text as a tree and accepts nothing beyond the standard: no comments, no
trailing commas, no byte order mark. A number is kept as it is written. `Json.quote` writes a
string.
-/

import Scaffold.Text.Reader

namespace Scaffold

/-- A JSON value. A string that holds half of a surrogate pair stands for no text, and is
`none`. -/
inductive Json where
  | null
  | bool (value : Bool)
  | number (written : Text)
  | string (value : Option Text)
  | array (elements : List Json)
  | object (members : List (Option Text × Json))

namespace Json

/-! ### Writing -/

/-- The hexadecimal digit of a number below sixteen. -/
def hexDigit (n : Nat) : Char := (Nat.toDigits 16 n).headD '0'

/-- How a character is written inside a string. -/
def quoteChar (c : Char) : Text :=
  match c with
  | '\x22' => ['\\', '\x22']
  | '\\' => ['\\', '\\']
  | '\x08' => ['\\', 'b']
  | '\x0c' => ['\\', 'f']
  | '\n' => ['\\', 'n']
  | '\r' => ['\\', 'r']
  | '\t' => ['\\', 't']
  | _ =>
    if c.toNat < 0x20 then
      ['\\', 'u', '0', '0', hexDigit (c.toNat / 16), hexDigit (c.toNat % 16)]
    else [c]

/-- A string in its written form. -/
def quote (text : Text) : Text := '\x22' :: text.flatMap quoteChar ++ ['\x22']

/-! ### Reading -/

/-- White space between the parts of a document. -/
def isSpace (c : Char) : Bool := c == ' ' || c == '\n' || c == '\t' || c == '\r'

/-- Skips white space. -/
def spaces : Reader Unit := do discard (Reader.takeWhile isSpace)

/-- A sign out of `signs`, if one stands here. -/
def sign? (signs : Text) : Reader Text := do
  match ← Reader.peek? with
  | some c => if c ∈ signs then return [← Reader.satisfy (· == c)] else return []
  | none => return []

/-- The digits before the point, without superfluous zeros. -/
def wholePart : Reader Text := do
  if ← Reader.skip? ['0'] then return ['0'] else Reader.takeWhile1 Char.isDigit

/-- The point and the digits after it, if there is a point. -/
def fraction? : Reader Text := do
  if ← Reader.skip? ['.'] then return '.' :: (← Reader.takeWhile1 Char.isDigit) else return []

/-- The exponent, if there is one. -/
def exponent? : Reader Text := do
  match ← sign? ['e', 'E'] with
  | [] => return []
  | mark => return mark ++ (← sign? ['+', '-']) ++ (← Reader.takeWhile1 Char.isDigit)

/-- A number, as it is written. -/
def numeral : Reader Text := do
  return (← sign? ['-']) ++ (← wholePart) ++ (← fraction?) ++ (← exponent?)

/-- The code unit of four hexadecimal digits. -/
def codeUnit : Reader Nat := do return hexValue (← Reader.count 4 isHexDigit)

/-- What stands after a backslash in a string: one character, or half of a pair. -/
def escape : Reader (Option Char) := do
  match ← Reader.satisfy fun _ => true with
  | '\x22' => return some '\x22'
  | '\\' => return some '\\'
  | '/' => return some '/'
  | 'b' => return some '\x08'
  | 'f' => return some '\x0c'
  | 'n' => return some '\n'
  | 'r' => return some '\r'
  | 't' => return some '\t'
  | 'u' =>
    let unit ← codeUnit
    if 0xD800 ≤ unit ∧ unit < 0xDC00 then
      (do
        Reader.literal ['\\', 'u']
        let low ← codeUnit
        if 0xDC00 ≤ low ∧ low < 0xE000 then
          return charOfCodePoint? (0x10000 + (unit - 0xD800) * 0x400 + (low - 0xDC00))
        else failure) <|> return none
    else return charOfCodePoint? unit
  | _ => failure

/-- The characters of a string up to the quote that ends it. -/
def characters : Nat → Reader (Option Text)
  | 0 => failure
  | fuel + 1 => do
    match ← Reader.satisfy fun c => 0x20 ≤ c.toNat with
    | '\x22' => return some []
    | '\\' =>
      let c ← escape
      let rest ← characters fuel
      return do return (← c) :: (← rest)
    | c => return (← characters fuel).map (c :: ·)

/-- A string after its opening quote. -/
def stringBody : Reader (Option Text) := do characters ((← get).length + 1)

mutual

/-- A value, and the white space around it. -/
def value : Nat → Reader Json
  | 0 => failure
  | fuel + 1 => do
    spaces
    let found ← bare fuel
    spaces
    return found

/-- A value. -/
def bare : Nat → Reader Json
  | 0 => failure
  | fuel + 1 => do
    match ← Reader.peek? with
    | some '\x7b' =>
      Reader.char '\x7b'
      spaces
      if ← Reader.skip? ['\x7d'] then return object [] else return object (← members fuel)
    | some '[' =>
      Reader.char '['
      spaces
      if ← Reader.skip? [']'] then return array [] else return array (← elements fuel)
    | some '\x22' =>
      Reader.char '\x22'
      return string (← stringBody)
    | some 't' =>
      Reader.literal "true".toList
      return bool true
    | some 'f' =>
      Reader.literal "false".toList
      return bool false
    | some 'n' =>
      Reader.literal "null".toList
      return null
    | _ => return number (← numeral)

/-- The elements of an array, one at least, through the closing bracket. -/
def elements : Nat → Reader (List Json)
  | 0 => failure
  | fuel + 1 => do
    let first ← value fuel
    if ← Reader.skip? [','] then return first :: (← elements fuel)
    Reader.char ']'
    return [first]

/-- The members of an object, one at least, through the closing brace. -/
def members : Nat → Reader (List (Option Text × Json))
  | 0 => failure
  | fuel + 1 => do
    spaces
    Reader.char '\x22'
    let key ← stringBody
    spaces
    Reader.char ':'
    let bound ← value fuel
    if ← Reader.skip? [','] then return (key, bound) :: (← members fuel)
    Reader.char '\x7d'
    return [(key, bound)]

end

/-- Reads a JSON text. Each character takes one round of `value`, `bare` and `elements` or
`members` at most. -/
def read? (text : Text) : Option Json := Reader.readAll? (value (3 * text.length + 3)) text

/-! ### Reading records -/

/-- The values of the named fields of a record. A record is an object, where other fields do not
count and a named one may stand once, or a list of the values in the order of the names. -/
def record? (names : List Text) : Json → Option (List (Option Json))
  | object members =>
    if members.all fun member => member.1.isSome then
      names.mapM fun name =>
        match members.filter (·.1 == some name) with
        | [] => some none
        | [member] => some (some member.2)
        | _ => none
    else none
  | array elements =>
    if elements.length ≤ names.length then
      some (elements.map some ++ List.replicate (names.length - elements.length) none)
    else none
  | _ => none

end Json
end Scaffold
