/-
# TOML documents

A document is a list of lines: headers, and keys with values. Arrays and tables in braces may nest
seventy-nine deep, and a dotted key may have seventy-nine parts.
-/

import Scaffold.Toml.Scalar

namespace Scaffold.Toml

/-- The least depth that is too deep. -/
def depthLimit : Nat := 80

/-! ### Keys -/

/-- A character of a key without quotes. -/
def isBareKeyChar (c : Char) : Bool := c.isAlphanum || c == '_' || c == '-'

/-- One part of a key, and the white space around it. -/
def keyPart : Reader Text := do
  spaces
  let part ←
    quotedLine '\x22' <|> quotedLine '\x27' <|> Reader.takeWhile1 isBareKeyChar
  spaces
  return part

/-- The parts of a dotted key, one at least. -/
def keyParts : Nat → Reader (List Text × Text)
  | 0 => failure
  | room + 1 => do
    let part ← keyPart
    if ← Reader.skip? ['.'] then
      let (path, last) ← keyParts room
      return (part :: path, last)
    else return ([], part)

/-- A dotted key: the parts before the last, and the last. -/
def key : Reader (List Text × Text) := keyParts (depthLimit - 1)

/-! ### Values -/

/-- A value that is neither an array nor a table. -/
def scalar : Reader Toml := do
  match ← Reader.peek? with
  | some '\x22' => return .string (← quoted '\x22')
  | some '\x27' => return .string (← quoted '\x27')
  | some 't' =>
    Reader.literal "true".toList
    return .boolean true
  | some 'f' =>
    Reader.literal "false".toList
    return .boolean false
  | _ => moment <|> fractional <|> special <|> integer

mutual

/-- A value; `room` says how much deeper arrays and tables may nest. -/
def value (room : Nat) : Nat → Reader Toml
  | 0 => failure
  | fuel + 1 => do
    match ← Reader.peek?, room with
    | some '[', room + 1 =>
      Reader.char '['
      return .array (← elements room fuel)
    | some '\x7b', room + 1 =>
      Reader.char '\x7b'
      spaces
      let pairs ← if ← Reader.skip? ['\x7d'] then pure [] else members room fuel
      match bindAll pairs [] with
      | some entries => return .table .braces entries
      | none => failure
    | _, _ => scalar

/-- The elements of an array through its closing bracket. -/
def elements (room : Nat) : Nat → Reader (List Toml)
  | 0 => failure
  | fuel + 1 => do
    blanks (← get).length
    if ← Reader.skip? [']'] then return []
    let first ← value room fuel
    blanks (← get).length
    if ← Reader.skip? [','] then return first :: (← elements room fuel)
    Reader.char ']'
    return [first]

/-- The keys and values of a table in braces, one at least, through the closing brace. -/
def members (room : Nat) : Nat → Reader (List (List Text × Text × Toml))
  | 0 => failure
  | fuel + 1 => do
    let (path, last) ← key
    Reader.char '='
    spaces
    let bound ← value room fuel
    spaces
    if ← Reader.skip? [','] then return (path, last, bound) :: (← members room fuel)
    Reader.char '\x7d'
    return [(path, last, bound)]

end

/-! ### Lines -/

/-- A line of a document. -/
inductive Line where
  | blank
  | pair (path : List Text) (key : Text) (value : Toml)
  | header (path : List Text) (key : Text)
  /-- A header in double brackets. -/
  | tablesHeader (path : List Text) (key : Text)

/-- A line with its line break. -/
def line : Reader Line := do
  spaces
  match ← Reader.peek? with
  | none | some '#' | some '\n' | some '\r' =>
    endOfLine
    return .blank
  | some '[' =>
    if ← Reader.skip? ['[', '['] then
      let (path, last) ← key
      Reader.literal [']', ']']
      endOfLine
      return .tablesHeader path last
    else
      Reader.char '['
      let (path, last) ← key
      Reader.char ']'
      endOfLine
      return .header path last
  | _ =>
    let (path, last) ← key
    Reader.char '='
    spaces
    let bound ← value (depthLimit - 1) (2 * (← get).length + 2)
    endOfLine
    return .pair path last bound

/-- All lines of a document. -/
def allLines : Nat → Reader (List Line)
  | 0 => failure
  | fuel + 1 => do
    if (← get).isEmpty then return [] else return (← line) :: (← allLines fuel)

/-- The keys and values before the next header, and the lines from that header on. -/
def pairsBeforeHeader : List Line → List (List Text × Text × Toml) × List Line
  | .blank :: rest => pairsBeforeHeader rest
  | .pair path key value :: rest =>
    let (pairs, later) := pairsBeforeHeader rest
    ((path, key, value) :: pairs, later)
  | lines => ([], lines)

/-- The lines behind the first table are fewer than all. -/
theorem length_pairsBeforeHeader_le (lines : List Line) :
    (pairsBeforeHeader lines).2.length ≤ lines.length := by
  fun_induction pairsBeforeHeader lines with
  | case1 rest ih => simp; omega
  | case2 path key value rest pairs later h ih =>
    simp only [h] at ih
    simp; omega
  | case3 => simp

/-- Adds tables, each given by its header and the lines after it. -/
def addTables (root : Entries) : List Line → Option Entries
  | [] => some root
  | .header path key :: rest =>
    match addTable path key (pairsBeforeHeader rest).1 root with
    | none => none
    | some grown => addTables grown (pairsBeforeHeader rest).2
  | .tablesHeader path key :: rest =>
    match addToTables path key (pairsBeforeHeader rest).1 root with
    | none => none
    | some grown => addTables grown (pairsBeforeHeader rest).2
  | _ :: rest => addTables root rest
termination_by lines => lines.length
decreasing_by
  · exact Nat.lt_succ_of_le (length_pairsBeforeHeader_le rest)
  · exact Nat.lt_succ_of_le (length_pairsBeforeHeader_le rest)
  · simp

/-- The entries of a document, which may start with a byte order mark. -/
def read? (text : Text) : Option Entries := do
  let body := (Text.after? ['\uFEFF'] text).getD text
  let lines ← Reader.readAll? (allLines (body.length + 1)) body
  let (pairs, later) := pairsBeforeHeader lines
  addTables (← bindAll pairs []) later

end Scaffold.Toml
