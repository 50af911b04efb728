/-
# Section paths

A section of a document is a nested array; its path lists the keys that lead to it from the
returned array. The empty path names the returned array itself. A path is also written with dots,
and then no key may be empty.
-/

import Scaffold.Text.Basic

namespace Scaffold.Config

/-- The keys that lead to a section. -/
structure SectionPath where
  keys : List Text
deriving DecidableEq, Repr

namespace SectionPath

/-- The path of the returned array. -/
def root : SectionPath := ⟨[]⟩

/-- Whether the path has no keys and addresses the root array itself. -/
def isRoot (path : SectionPath) : Bool := path.keys.isEmpty

/-- The path made of the first `n` keys. -/
def take (path : SectionPath) (n : Nat) : SectionPath := ⟨path.keys.take n⟩

/-- How a path is shown. -/
def display (path : SectionPath) : Text :=
  if path.isRoot then "<root>".toList else ['.'].intercalate path.keys

/-- Reads a path written with dots; nothing if one of its keys is empty. -/
def ofDotted? (text : Text) : Option SectionPath :=
  if text.isEmpty then some root
  else
    let keys := text.splitOn '.'
    if keys.any List.isEmpty then none else some ⟨keys⟩

end SectionPath
end Scaffold.Config
