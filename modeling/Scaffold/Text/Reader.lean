/-
# Readers

A reader takes a value off the front of a text, or fails. A reader that fails has taken nothing,
so another one can be tried in its place.
-/

import Scaffold.Text.Basic

namespace Scaffold

/-- A reader of values of type `α`. -/
abbrev Reader (α : Type) := StateT Text Option α

namespace Reader

/-- The next character, which stays in the text. -/
def peek? : Reader (Option Char) := do return (← get).head?

/-- The next character, if it satisfies `p`. -/
def satisfy (p : Char → Bool) : Reader Char := do
  match ← get with
  | [] => failure
  | c :: rest => if p c then set rest; return c else failure

/-- The character `c`. -/
def char (c : Char) : Reader Unit := do discard (satisfy (· == c))

/-- All characters up to the first that does not satisfy `p`. -/
def takeWhile (p : Char → Bool) : Reader Text := do
  let text ← get
  set (text.dropWhile p)
  return text.takeWhile p

/-- As `takeWhile`, but one character at least. -/
def takeWhile1 (p : Char → Bool) : Reader Text := do
  let found ← takeWhile p
  if found.isEmpty then failure else return found

/-- Exactly `n` characters that satisfy `p`. -/
def count (n : Nat) (p : Char → Bool) : Reader Text := do
  let text ← get
  let found := text.take n
  if found.length = n ∧ found.all p then set (text.drop n); return found else failure

/-- Whether the text goes on with `expected`, which is then taken off. -/
def skip? (expected : Text) : Reader Bool := do
  match Text.after? expected (← get) with
  | some rest => set rest; return true
  | none => return false

/-- The text `expected`. -/
def literal (expected : Text) : Reader Unit := do
  if ← skip? expected then return () else failure

/-- Nothing, at the end of the text only. -/
def atEnd : Reader Unit := do
  if (← get).isEmpty then return () else failure

/-- The value of a text that the reader takes as a whole. -/
def readAll? {α : Type} (reader : Reader α) (text : Text) : Option α :=
  ((do let value ← reader; atEnd; return value : Reader α).run text).map Prod.fst

end Reader

/-- The number that hexadecimal digits stand for. -/
def hexValue (digits : Text) : Nat :=
  digits.foldl (fun n c =>
    16 * n + (if c.isDigit then c.toNat - 48 else c.toLower.toNat - 87)) 0

/-- Whether `c` is a hexadecimal digit. -/
def isHexDigit (c : Char) : Bool := c.isDigit || ('a' ≤ c.toLower && c.toLower ≤ 'f')

/-- The character of a code point that is one. -/
def charOfCodePoint? (n : Nat) : Option Char :=
  if n.isValidChar then some (Char.ofNat n) else none

end Scaffold
