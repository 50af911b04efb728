/-
# TOML strings, numbers, dates and times
-/

import Scaffold.Text.Reader
import Scaffold.Toml.Value

namespace Scaffold.Toml

/-! ### White space and comments -/

/-- White space within a line. -/
def spaces : Reader Unit := do discard (Reader.takeWhile Text.isIndent)

/-- Whether a character may stand in a comment or a string: a tab, or no control character. -/
def isPlain (c : Char) : Bool := c == '\t' || (0x20 ≤ c.toNat && c.toNat != 0x7F)

/-- A comment up to the end of its line, if one starts here. -/
def comment? : Reader Unit := do
  if ← Reader.skip? ['#'] then discard (Reader.takeWhile isPlain)

/-- A line break, if one stands here. -/
def newline? : Reader Bool := do
  if ← Reader.skip? ['\n'] then return true else Reader.skip? ['\r', '\n']

/-- What may follow on a line: white space, a comment, and a line break or the end. -/
def endOfLine : Reader Unit := do
  spaces
  comment?
  if ← newline? then return () else Reader.atEnd

/-- White space and line breaks, in at most `fuel` steps. -/
def blankLines : Nat → Reader Unit
  | 0 => return ()
  | fuel + 1 => do
    spaces
    if ← newline? then blankLines fuel else return ()

/-- White space, line breaks and comments, in at most `fuel` steps. -/
def blanks : Nat → Reader Unit
  | 0 => return ()
  | fuel + 1 => do
    spaces
    comment?
    if ← newline? then blanks fuel else return ()

/-! ### Strings -/

/-- The character that a backslash and what follows it stand for. -/
def escape : Reader Char := do
  match ← Reader.satisfy fun _ => true with
  | 'b' => return '\x08'
  | 't' => return '\t'
  | 'n' => return '\n'
  | 'f' => return '\x0c'
  | 'r' => return '\r'
  | '\x22' => return '\x22'
  | '\\' => return '\\'
  | 'u' => codePoint 4
  | 'U' => codePoint 8
  | _ => failure
where
  /-- The character whose code point has `n` hexadecimal digits. -/
  codePoint (n : Nat) : Reader Char := do
    match charOfCodePoint? (hexValue (← Reader.count n isHexDigit)) with
    | some c => return c
    | none => failure

/-- A string on one line up to its closing quote. Between double quotes a backslash escapes. -/
def lineString (quote : Char) : Nat → Reader Text
  | 0 => failure
  | fuel + 1 => do
    let c ← Reader.satisfy isPlain
    if c = quote then return []
    else if c = '\\' ∧ quote = '\x22' then return (← escape) :: (← lineString quote fuel)
    else return c :: (← lineString quote fuel)

/-- What a backslash in a string of several lines stands for: nothing before a line break and the
white space and line breaks after it, otherwise the character it escapes. -/
def lineEscape : Reader Text := do
  let lineBreak : Reader Unit := do
    spaces
    if ← newline? then blankLines (← get).length else failure
  (do lineBreak; return []) <|> (do return [← escape])

/-- A string of several lines up to the three quotes that close it. One or two more quotes just
before them belong to the string. -/
def blockString (quote : Char) : Nat → Reader Text
  | 0 => failure
  | fuel + 1 => do
    let quotes := ((← get).takeWhile (· == quote)).length
    if 3 ≤ quotes then
      let own := min (quotes - 3) 2
      Reader.literal (List.replicate (own + 3) quote)
      return List.replicate own quote
    else if ← newline? then return '\n' :: (← blockString quote fuel)
    else
      let c ← Reader.satisfy isPlain
      if c = '\\' ∧ quote = '\x22' then return (← lineEscape) ++ (← blockString quote fuel)
      else return c :: (← blockString quote fuel)

/-- A string on one line. -/
def quotedLine (quote : Char) : Reader Text := do
  Reader.char quote
  lineString quote ((← get).length + 1)

/-- A string in single or threefold quotes. A line break just after threefold quotes does not
count. -/
def quoted (quote : Char) : Reader Text := do
  if ← Reader.skip? (List.replicate 3 quote) then
    discard newline?
    blockString quote ((← get).length + 1)
  else quotedLine quote

/-! ### Numbers -/

/-- Whether underscores stand only between digits. -/
def wellGrouped (digits : Text) : Bool :=
  (digits.splitOn '_').all fun group => !group.isEmpty

/-- Digits of a kind, which underscores may group; the underscores are left out. -/
def grouped (isDigit : Char → Bool) : Reader Text := do
  let found ← Reader.takeWhile1 fun c => isDigit c || c == '_'
  if wellGrouped found then return found.filter (· != '_') else failure

/-- A sign, if one stands here. -/
def sign? : Reader Text := do
  if ← Reader.skip? ['+'] then return ['+']
  else if ← Reader.skip? ['-'] then return ['-']
  else return []

/-- A decimal integer without superfluous zeros: its sign and its digits. -/
def decimal : Reader (Text × Text) := do
  let sign ← sign?
  let digits ← grouped Char.isDigit
  if digits.length ≠ 1 ∧ digits.head? = some '0' then failure else return (sign, digits)

/-- The number that decimal digits stand for. -/
def natOf (digits : Text) : Nat := digits.foldl (fun n c => 10 * n + (c.toNat - 48)) 0

/-- An integer in another base, after its two characters of introduction. -/
def based (introduction : Text) (base : Nat) (isDigit : Char → Bool) : Reader Toml := do
  Reader.literal introduction
  let digits ← grouped isDigit
  let value := digits.foldl (fun n c => base * n + hexValue [c]) 0
  if value < Nat.pow 2 63 then return .number (introduction ++ digits) else failure

/-- An integer; it must fit into 64 bits. -/
def integer : Reader Toml :=
  based ['0', 'x'] 16 isHexDigit
  <|> based ['0', 'o'] 8 (fun c => '0' ≤ c && c ≤ '7')
  <|> based ['0', 'b'] 2 (fun c => c == '0' || c == '1')
  <|> do
    let (sign, digits) ← decimal
    let limit := if sign = ['-'] then Nat.pow 2 63 else Nat.pow 2 63 - 1
    if natOf digits ≤ limit then return .number (sign ++ digits) else failure

/-- Whether `digits * 10 ^ exponent` is too large for a finite number of double precision. -/
def isHuge (digits : Text) (exponent : Int) : Bool :=
  let significant := digits.dropWhile (· == '0')
  let size : Int := significant.length + exponent
  let bound := (Nat.pow 2 54 - 1) * Nat.pow 2 970
  if significant.isEmpty ∨ size < 308 then false
  else if 310 < size then true
  else if 0 ≤ exponent then bound ≤ natOf significant * Nat.pow 10 exponent.toNat
  else bound * Nat.pow 10 (-exponent).toNat ≤ natOf significant

/-- The exponent of a number. -/
def exponent : Reader Int := do
  discard (Reader.satisfy fun c => c == 'e' || c == 'E')
  let sign ← sign?
  let digits ← grouped Char.isDigit
  return if sign = ['-'] then -(natOf digits : Int) else natOf digits

/-- A number with a point, an exponent, or both. -/
def fractional : Reader Toml := do
  let start ← get
  let (sign, whole) ← decimal
  let fraction : Text ←
    (do Reader.char '.'; grouped Char.isDigit) <|> (do let _ ← exponentAhead; return [])
  let shift ← exponent <|> return 0
  if sign ≠ ['-'] ∧ isHuge (whole ++ fraction) (shift - fraction.length) then failure
  else return .number (start.take (start.length - (← get).length))
where
  /-- Nothing, before the mark of an exponent only. -/
  exponentAhead : Reader Unit := do
    match ← Reader.peek? with
    | some 'e' | some 'E' => return ()
    | _ => failure

/-- An infinity or a number that is none. -/
def special : Reader Toml := do
  let sign ← sign?
  if ← Reader.skip? "inf".toList then return .number (sign ++ "inf".toList)
  else
    Reader.literal "nan".toList
    return .number (sign ++ "nan".toList)

/-! ### Dates and times -/

/-- `n` digits that stand for a number from `low` to `high`. -/
def digits (n low high : Nat) : Reader Text := do
  let found ← Reader.count n Char.isDigit
  if low ≤ natOf found ∧ natOf found ≤ high then return found else failure

/-- The number of days of a month. -/
def daysOf (year month : Nat) : Nat :=
  if month = 2 then
    if year % 4 = 0 ∧ (year % 100 ≠ 0 ∨ year % 400 = 0) then 29 else 28
  else if month ∈ [4, 6, 9, 11] then 30
  else 31

/-- A date. -/
def date : Reader Text := do
  let year ← digits 4 0 9999
  Reader.char '-'
  let month ← digits 2 1 12
  Reader.char '-'
  let day ← digits 2 1 (daysOf (natOf year) (natOf month))
  return year ++ '-' :: month ++ '-' :: day

/-- A fraction of a second, if one stands here. Nine digits count, and zeros at the end do not. -/
def secondFraction? : Reader Text :=
  (do
    Reader.char '.'
    let written ← Reader.takeWhile1 Char.isDigit
    match Text.dropEndWhile (· == '0') (written.take 9) with
    | [] => return []
    | shown => return '.' :: shown) <|> return []

/-- A time of the day. -/
def time : Reader Text := do
  let hour ← digits 2 0 23
  Reader.char ':'
  let minute ← digits 2 0 59
  Reader.char ':'
  let second ← digits 2 0 60
  return hour ++ ':' :: minute ++ ':' :: second ++ (← secondFraction?)

/-- The distance of a local time from universal time, if one stands here. -/
def timeOffset? : Reader Text :=
  (do
    if (← Reader.skip? ['Z']) || (← Reader.skip? ['z']) then return ['Z']
    else
      let sign ← Reader.satisfy fun c => c == '+' || c == '-'
      let hour ← digits 2 0 23
      Reader.char ':'
      let minute ← digits 2 0 59
      let shown := if natOf hour = 0 ∧ natOf minute = 0 then '+' else sign
      return shown :: hour ++ ':' :: minute) <|> return []

/-- A date, a time, or both. -/
def moment : Reader Toml :=
  (do
    let day ← date
    (do
      discard (Reader.satisfy fun c => c == 'T' || c == 't' || c == ' ')
      let hour ← time
      return .dateTime (day ++ 'T' :: hour ++ (← timeOffset?))) <|> return .dateTime day)
  <|> do return .dateTime (← time)

end Scaffold.Toml
