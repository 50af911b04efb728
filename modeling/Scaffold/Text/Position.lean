/-
# Lines and columns

People count lines and columns from one; a column counts characters since the last newline.
-/

import Scaffold.Text.Basic

namespace Scaffold

/-- A place in a text as people name it. -/
structure Position where
  line : Nat
  column : Nat
deriving DecidableEq, Repr

/-- Line and column of the place with `offset` characters before it. -/
def Text.position (text : Text) (offset : Nat) : Position :=
  let before := text.take offset
  { line := before.count '\n' + 1, column := (afterLast '\n' before).length + 1 }

end Scaffold
