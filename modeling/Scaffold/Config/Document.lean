/-
# Configuration documents

A document is a source text that returns one array literal, together with a reading of it. It is
never evaluated. A section is looked up by its path, key by key; an edit changes the text at the
place it concerns, leaves every other character as it was, and reads the new text afresh.

An edit that fails may already have changed the document, so edits give back the document beside
their result.
-/

import Scaffold.Config.Error
import Scaffold.Config.Insertion
import Scaffold.Config.Literal
import Scaffold.Script.SourceFile
import Scaffold.Script.Value

namespace Scaffold.Config

open Script (ArrayLiteral ArrayStyle Expression Item Names SourceFile Token Value)

/-- A source text and what it holds. -/
structure Document where
  source : Text
  file : SourceFile
  /-- Whether the document was started empty, not read. -/
  created : Bool
deriving DecidableEq, Repr

/-- A section of a document. -/
structure Section where
  path : SectionPath
  literal : ArrayLiteral
deriving DecidableEq, Repr

/-- An item of a section, as written. -/
structure Entry where
  key : Option Text
  value : Text
deriving DecidableEq, Repr

/-- What setting an entry did. -/
inductive Change where
  /-- The key was appended to its section. -/
  | inserted
  /-- The key was there and got another value. -/
  | replaced
  /-- The key was there with this value; the text is untouched. -/
  | unchanged
deriving DecidableEq, Repr

/-- Where a path leads. -/
inductive Located where
  | found (literal : ArrayLiteral)
  /-- The section `parent`, reached by the keys `reached`, has no item for `key`; the keys
  `deeper` are still to come. -/
  | missing (parent : ArrayLiteral) (reached : List Text) (key : Text) (deeper : List Text)

namespace Document

/-- The text of a document that was started empty. -/
def emptySource : Text := "<?php\n\nreturn [];\n".toList

/-- A document that returns an empty array. -/
def empty : Document where
  source := emptySource
  file :=
    { tokens :=
        [⟨.openTag, 0, "<?php".toList⟩, ⟨.word, 7, "return".toList⟩,
          ⟨.opening .square, 14, ['[']⟩, ⟨.closing .square, 15, [']']⟩, ⟨.semicolon, 16, [';']⟩],
      names := .global,
      root := { style := .short, start := 14, openStop := 15, items := [], close := 15 } }
  created := true

/-- Reads a text as a document. -/
def read (source : Text) (created : Bool) : Except DocumentError Document :=
  match SourceFile.read source with
  | .error found => .error (.malformedAt source found.offset (.fault found.fault))
  | .ok file => .ok { source, file, created }

/-- Reads a text that is there already. -/
def parse (source : Text) : Except DocumentError Document := read source false

/-- The text of the document. -/
def render (document : Document) : Text := document.source

/-- How the returned array is written. -/
def style (document : Document) : ArrayStyle := document.file.root.style

/-- The items of an array literal of the document, as written. -/
def entriesOf (document : Document) (literal : ArrayLiteral) : List Entry :=
  literal.items.map fun item =>
    { key := item.key.map (·.written document.source), value := item.value.written document.source }

/-- The items of the returned array, as written. -/
def entries (document : Document) : List Entry := document.entriesOf document.file.root

/-- The value of an expression of the document. -/
def evaluate (document : Document) (e : Expression) : Value :=
  e.evaluate document.source document.file.names

/-! ### Looking up -/

/-- The items of a literal whose key has the given value. -/
def matching (document : Document) (literal : ArrayLiteral) (wanted : Value) : List Item :=
  literal.items.filter fun item => item.key.any fun key => document.evaluate key == wanted

/-- The item whose key has the given value, if there is one; an error if there are several. -/
def find? (document : Document) (literal : ArrayLiteral) (wanted : Value) (path : SectionPath) :
    Except DocumentError (Option Item) :=
  match document.matching literal wanted with
  | [] => .ok none
  | [item] => .ok (some item)
  | _ => .error (.ambiguousKey path wanted.describe)

/-- The first value in a list that stands in it again later or was seen before. -/
def firstRepeated? (seen : List Value) : List Value → Option Value
  | [] => none
  | value :: rest => if value ∈ seen then some value else firstRepeated? (value :: seen) rest

/-- Fails if two keys of a literal have the same value. -/
def checkUnique (document : Document) (literal : ArrayLiteral) (path : SectionPath) :
    Except DocumentError Unit :=
  match firstRepeated? [] ((literal.items.filterMap Item.key).map document.evaluate) with
  | none => .ok ()
  | some value => .error (.ambiguousKey path value.describe)

/-- Follows keys from a literal that the keys `reached` lead to. -/
def walk (document : Document) (literal : ArrayLiteral) (reached : List Text) :
    List Text → Except DocumentError Located
  | [] => .ok (.found literal)
  | key :: deeper =>
    match document.find? literal (.known key) ⟨reached⟩ with
    | .error e => .error e
    | .ok none => .ok (.missing literal reached key deeper)
    | .ok (some item) =>
      match ArrayLiteral.read? item.value.tokens with
      | .error found => .error (.malformedAt document.source found.offset (.fault found.fault))
      | .ok (some (nested, [])) => document.walk nested (reached ++ [key]) deeper
      | .ok _ => .error (.notAnArray ⟨reached ++ [key]⟩)

/-- Where a path leads from the returned array. -/
def locate (document : Document) (path : SectionPath) : Except DocumentError Located :=
  document.walk document.file.root [] path.keys

/-- The section at a path. -/
def sectionAt (document : Document) (path : SectionPath) : Except DocumentError Section :=
  match document.locate path with
  | .error e => .error e
  | .ok (.found literal) => .ok ⟨path, literal⟩
  | .ok (.missing _ reached key _) => .error (.sectionNotFound ⟨reached ++ [key]⟩)

/-- What is written for the value of a key in a section, if the section has the key. -/
def get? (document : Document) (place : Section) (key : Literal) :
    Except DocumentError (Option Text) :=
  (document.find? place.literal (.known key.evaluated) place.path).map fun item =>
    item.map fun item => item.value.written document.source

/-! ### Editing -/

/-- The document after some edits, read afresh. -/
def splice (document : Document) (edits : List Edit) : Except DocumentError Document :=
  read (Edit.applyAll edits document.source) document.created

/-- How a literal is written in the document. -/
def written (document : Document) (literal : Literal) : Text := literal.toSource document.file.names

/-- How an item that binds a key to a value is written. -/
def writtenItem (document : Document) (key : Literal) (value : Text) : Text :=
  document.written key ++ " => ".toList ++ value

/-- Finds the section at a path and creates what is missing of it, one section in each round, as
long as fewer than `limit` keys are left after the missing one. -/
def ensureWithin (limit : Nat) (path : SectionPath) (document : Document) :
    Document × Except DocumentError ArrayLiteral :=
  match document.locate path with
  | .error e => (document, .error e)
  | .ok (.found literal) => (document, .ok literal)
  | .ok (.missing parent reached key deeper) =>
    if deeper.length < limit then
      let item := document.writtenItem (.string key) document.style.emptyLiteral
      match document.splice (insertItem document.source parent item) with
      | .error e => (document, .error e)
      | .ok changed => ensureWithin deeper.length path changed
    else
      let problem : Problem := .sectionNotCreated ⟨reached ++ [key]⟩
      (document, .error (.malformedAt document.source parent.start problem))
termination_by limit

/-- The array literal of the section at a path, created where it is missing. -/
def ensure (path : SectionPath) (document : Document) :
    Document × Except DocumentError ArrayLiteral :=
  document.ensureWithin path.keys.length path

/-- The section at a path, created where it is missing. -/
def ensureSection (path : SectionPath) (document : Document) :
    Document × Except DocumentError Section :=
  match document.ensure path with
  | (changed, result) => (changed, result.map fun literal => ⟨path, literal⟩)

/-- Fails unless the section at a path now has an item for a key. -/
def checkAdded (document : Document) (path : SectionPath) (wanted : Value) :
    Except DocumentError Unit :=
  match document.locate path with
  | .error e => .error e
  | .ok (.missing ..) => .error (.sectionNotFound path)
  | .ok (.found literal) =>
    match document.find? literal wanted path with
    | .error e => .error e
    | .ok (some _) => .ok ()
    | .ok none => .error (.malformedAt document.source literal.start (.entryNotAdded path))

/-- Binds a key to a value in an array literal of the document, which is the section at `path`. -/
def setIn (document : Document) (literal : ArrayLiteral) (path : SectionPath)
    (key value : Literal) : Document × Except DocumentError Change :=
  match document.checkUnique literal path with
  | .error e => (document, .error e)
  | .ok () =>
    match document.find? literal (.known key.evaluated) path with
    | .error e => (document, .error e)
    | .ok (some item) =>
      if document.evaluate item.value = .known value.evaluated then (document, .ok .unchanged)
      else
        match document.splice [⟨item.value.start, item.value.stop, document.written value⟩] with
        | .error e => (document, .error e)
        | .ok changed => (changed, .ok .replaced)
    | .ok none =>
      let item := document.writtenItem key (document.written value)
      match document.splice (insertItem document.source literal item) with
      | .error e => (document, .error e)
      | .ok changed =>
        (changed, (changed.checkAdded path (.known key.evaluated)).map fun _ => .inserted)

/-- Binds a key to a value in the section at a path, which is created where it is missing. A key
that is there keeps its place and its spelling. -/
def setEntry (path : SectionPath) (key value : Literal) (document : Document) :
    Document × Except DocumentError Change :=
  match document.ensure path with
  | (changed, .error e) => (changed, .error e)
  | (changed, .ok literal) => changed.setIn literal path key value

/-- The empty document is what its text is read as. -/
theorem read_emptySource : read emptySource true = .ok empty :=
  Script.eq_ok_of_toOption (by decide +kernel)

end Document
end Scaffold.Config
