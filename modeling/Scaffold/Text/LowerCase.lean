/-
# Lower case

`Text.toLowerCase` maps each character to its lower case. Capital I with a dot becomes two
characters, and capital sigma has a form of its own at the end of a word: where, marks and signs
left out, a letter stands before it and none after it.
-/

import Scaffold.Text.Basic
import Scaffold.Text.CaseTables

namespace Scaffold.Text

/-- Whether a code point lies in one of some runs. -/
def inRuns (runs : List (Nat × Nat)) (n : Nat) : Bool :=
  runs.any fun run => run.1 ≤ n && n ≤ run.2

/-- Whether a character has case. -/
def isCased (c : Char) : Bool := inRuns casedRuns c.toNat

/-- Whether a character is passed over in the search for a letter with case. -/
def isCaseIgnorable (c : Char) : Bool := inRuns caseIgnorableRuns c.toNat

/-- Whether the first character that is not passed over has case. -/
def startsCased (text : Text) : Bool := (text.dropWhile isCaseIgnorable).head?.any isCased

/-- The lower case of a character that has one and the same everywhere. -/
def lowerChar (c : Char) : Text :=
  if c = '\u0130' then ['i', '\u0307']
  else
    let n := c.toNat
    match lowerCaseRuns.find? fun (first, last, distance, _) =>
        first ≤ n && n ≤ last && (n - first) % distance == 0 with
    | some (first, _, _, target) => [Char.ofNat (target + (n - first))]
    | none => [c]

/-- The lower case of a text that follows some characters, given from the last to the first. -/
def lowerAfter (before : Text) : Text → Text
  | [] => []
  | c :: rest =>
    let lower :=
      if c = '\u03A3' then
        if startsCased before && !startsCased rest then ['\u03C2'] else ['\u03C3']
      else lowerChar c
    lower ++ lowerAfter (c :: before) rest

/-- A text in lower case. -/
def toLowerCase (text : Text) : Text := lowerAfter [] text

end Scaffold.Text
