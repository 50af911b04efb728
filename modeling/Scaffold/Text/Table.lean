/-
# Tables

A table binds texts to values. Its entries stand in the order of their keys, character by
character, and no key stands in it twice.
-/

import Scaffold.Text.Basic

namespace Scaffold

/-- Keys and their values, in the order of the keys. -/
abbrev Table (α : Type) := List (Text × α)

namespace Table

variable {α : Type}

/-- Binds a key to a value, in the place of the value it had. -/
def insert (key : Text) (value : α) : Table α → Table α
  | [] => [(key, value)]
  | (other, found) :: rest =>
    if key = other then (key, value) :: rest
    else if key < other then (key, value) :: (other, found) :: rest
    else (other, found) :: insert key value rest

/-- The table of some entries; of several with one key the last counts. -/
def ofEntries (entries : List (Text × α)) : Table α :=
  entries.foldl (fun table entry => insert entry.1 entry.2 table) []

end Table
end Scaffold
