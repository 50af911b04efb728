/-
# TOML values and how tables grow

A document names the entries of its tables piece by piece, with headers and with dotted keys. A
table remembers how it came to be, because that decides which later lines may add to it:

| origin | a later header of its own | a later dotted key |
| --- | --- | --- |
| written in braces | no | no |
| a header of its own | no | no |
| named on the way by a header | yes | only on the way to a table made by a dotted key |
| made by a dotted key | no | yes |
-/

import Scaffold.Text.Basic

namespace Scaffold

/-- How a table came to be. -/
inductive Toml.Origin where
  | braces
  | header
  /-- A header named it on the way to another table. -/
  | implied
  | dottedKey
deriving DecidableEq, Repr

/-- A TOML value. A number is kept as it is written. -/
inductive Toml where
  | string (value : Text)
  | number (written : Text)
  | boolean (value : Bool)
  /-- A date, a time or both, in the usual form. -/
  | dateTime (shown : Text)
  | array (elements : List Toml)
  | table (origin : Toml.Origin) (entries : List (Text × Toml))
  /-- The tables that share a header in double brackets. -/
  | tables (all : List (List (Text × Toml)))

namespace Toml

/-- The entries of a table. -/
abbrev Entries := List (Text × Toml)

/-- Puts `value` in the place of what is bound to `key`. -/
def replace (key : Text) (value : Toml) (entries : Entries) : Entries :=
  entries.map fun entry => if entry.1 == key then (key, value) else entry

/-- Changes the table that a path leads to from a table of the given origin. Tables missing on the
way are created, as made by a dotted key if `dotted` says so and as implied otherwise; a dotted key
does not enter a table that has a header. -/
def alter (dotted : Bool) (change : Origin → Entries → Option Entries) (origin : Origin)
    (entries : Entries) : List Text → Option Entries
  | [] => change origin entries
  | key :: path =>
    match entries.lookup key with
    | none =>
      let created := if dotted then .dottedKey else .implied
      (alter dotted change created [] path).map fun inner =>
        entries ++ [(key, .table created inner)]
    | some (.table found inner) =>
      if found = .braces ∨ (dotted ∧ found = .header) then none
      else (alter dotted change found inner path).map fun changed =>
        replace key (.table found changed) entries
    | some (.tables all) =>
      match all.getLast? with
      | none => none
      | some last => (alter dotted change .header last path).map fun changed =>
        replace key (.tables (all.dropLast ++ [changed])) entries
    | some _ => none

/-- Binds a new key. -/
def bindNew (key : Text) (value : Toml) (entries : Entries) : Option Entries :=
  if (entries.lookup key).isSome then none else some (entries ++ [(key, value)])

/-- Binds the last of some keys in the table that the others lead to. That table must have been
made by a dotted key, unless there are no others. -/
def bindDotted (path : List Text) (key : Text) (value : Toml) (entries : Entries) :
    Option Entries :=
  alter true (fun origin found =>
    if path ≠ [] ∧ origin ≠ .dottedKey then none else bindNew key value found)
    .header entries path

/-- The entries that pairs of a dotted key and a value add to some entries. -/
def bindAll (pairs : List (List Text × Text × Toml)) (entries : Entries) : Option Entries :=
  pairs.foldlM (fun found (path, key, value) => bindDotted path key value found) entries

/-- Adds the table of a header; a table that was named on the way so far gets the header and keeps
its entries. -/
def addTable (path : List Text) (key : Text) (pairs : List (List Text × Text × Toml))
    (root : Entries) : Option Entries :=
  alter false (fun _ parent =>
    match parent.lookup key with
    | none => (bindAll pairs []).map fun inner => parent ++ [(key, .table .header inner)]
    | some (.table .implied inner) =>
      (bindAll pairs inner).map fun changed => replace key (.table .header changed) parent
    | some _ => none)
    .header root path

/-- Adds one more table under a header in double brackets. -/
def addToTables (path : List Text) (key : Text) (pairs : List (List Text × Text × Toml))
    (root : Entries) : Option Entries :=
  alter false (fun _ parent =>
    match parent.lookup key with
    | none => (bindAll pairs []).map fun inner => parent ++ [(key, .tables [inner])]
    | some (.tables all) =>
      (bindAll pairs []).map fun inner => replace key (.tables (all ++ [inner])) parent
    | some _ => none)
    .header root path

end Toml
end Scaffold
