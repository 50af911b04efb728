/-
# Texts

A text is the list of its characters. A position in a text is the number of characters before it,
so `text.take n ++ text.drop n` cuts a text at position `n`.
-/

namespace Scaffold

/-- A text, character by character. -/
abbrev Text := List Char

namespace Text

/-- The characters from position `start` up to position `stop`. -/
def slice (text : Text) (start stop : Nat) : Text := (text.drop start).take (stop - start)

/-- Equality up to the case of the ASCII letters. -/
def equalsIgnoringCase (a b : Text) : Bool := a.map Char.toLower == b.map Char.toLower

/-- The text without the characters at its end that satisfy `p`. -/
def dropEndWhile (p : Char → Bool) (text : Text) : Text := (text.reverse.dropWhile p).reverse

/-- The text without the characters at both ends that satisfy `p`. -/
def trimBoth (p : Char → Bool) (text : Text) : Text := dropEndWhile p (text.dropWhile p)

/-- What follows `start` in `text`, if `text` begins with it. -/
def after? (start text : Text) : Option Text :=
  if start.isPrefixOf text then some (text.drop start.length) else none

/-- The part of a text after the last `sep`; all of it where there is none. -/
def afterLast (sep : Char) (text : Text) : Text := (text.reverse.takeWhile (· != sep)).reverse

/-- The part of a text before the last `sep`, if there is one. -/
def beforeLast? (sep : Char) (text : Text) : Option Text :=
  match text.reverse.dropWhile (· != sep) with
  | [] => none
  | _ :: before => some before.reverse

/-- A line without the carriage return that belongs to its line break. -/
def dropCarriageReturn (line : Text) : Text :=
  if line.getLast? = some '\r' then line.dropLast else line

/-- The lines of a text. A line ends at a newline, and a carriage return just before the newline
is part of the line break; what follows the last newline is a line too. -/
def lines (text : Text) : List Text :=
  let parts := text.splitOn '\n'
  parts.dropLast.map dropCarriageReturn ++ [parts.getLastD []]

/-- A space or a tab: what a line may be indented with. -/
def isIndent (c : Char) : Bool := c == ' ' || c == '\t'

/-- What follows any number of elements of a list is shorter than the list with one more element in
front. -/
theorem length_drop_lt_length_cons {α : Type} (a : α) (l : List α) (n : Nat) :
    (l.drop n).length < (a :: l).length := by
  rw [List.length_drop]
  exact Nat.lt_succ_of_le (Nat.sub_le l.length n)

/-- The text before a slice and the slice are the text before its end. -/
theorem take_append_slice (text : Text) {start stop : Nat} (h : start ≤ stop) :
    text.take start ++ slice text start stop = text.take stop := by
  unfold slice
  rw [← List.take_add, Nat.add_sub_cancel' h]

end Text
end Scaffold
