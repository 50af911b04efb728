/-
# The documents there are

A document is read from a text or started empty, and then edited. An operation changes it by
splices alone, one or several, so what a splice keeps is kept by every operation
(`KeptBySplice.setEntry`, `KeptBySplice.ensureSection`). Whatever the edits were and whether they
succeeded, the file of a document is what its source text is read as (`Reachable.isRead`), which
all that is proved about an edit rests on.
-/

import Scaffold.Proofs.Document.Splice

namespace Scaffold
namespace Config
namespace Document

/-- The documents that reading and editing give. -/
inductive Reachable : Document → Prop
  | parse {source : Text} {document : Document} (h : parse source = .ok document) :
      Reachable document
  | empty : Reachable .empty
  | setEntry {document : Document} (h : Reachable document) (path : SectionPath)
      (key value : Literal) : Reachable (document.setEntry path key value).1
  | ensureSection {document : Document} (h : Reachable document) (path : SectionPath) :
      Reachable (document.ensureSection path).1

/-- The empty document is read from its text. -/
theorem empty_isRead : IsRead .empty := (read_eq_ok_iff.1 read_emptySource).2.2

/-! ### What every operation keeps -/

/-- Editing the text of a document and reading it afresh keeps a property of documents. -/
def KeptBySplice (P : Document → Prop) : Prop :=
  ∀ ⦃document document' : Document⦄ ⦃edits : List Edit⦄, P document →
    document.splice edits = .ok document' → P document'

/-- Reading afresh is kept by reading afresh. -/
theorem keptBySplice_isRead : KeptBySplice IsRead := fun _ _ _ _ h => (read_eq_ok_iff.1 h).2.2

/-- Whether a document was created does not change. -/
theorem keptBySplice_created (created : Bool) : KeptBySplice (·.created = created) :=
  fun _ _ _ hcreated h => (read_eq_ok_iff.1 h).2.1.trans hcreated

/-- A document changes by splices alone, so what they keep is kept, also where the operation fails
after some of them. -/
theorem KeptBySplice.ensureWithin {P : Document → Prop} (hP : KeptBySplice P) {limit : Nat}
    {path : SectionPath} {document : Document} (h : P document) :
    P (document.ensureWithin limit path).1 := by
  fun_induction Document.ensureWithin limit path document with
  | case1 => exact h
  | case2 => exact h
  | case3 => exact h
  | case4 =>
    rename_i hsplice ih
    exact ih (hP h hsplice)
  | case5 => exact h

namespace KeptBySplice

variable {P : Document → Prop} (hP : KeptBySplice P) {document : Document} (h : P document)
include hP h

/-- What every splice keeps is kept where sections are created. -/
theorem ensure (path : SectionPath) : P (document.ensure path).1 := hP.ensureWithin h

/-- What every splice keeps is kept where a section is ensured. -/
theorem ensureSection (path : SectionPath) : P (document.ensureSection path).1 := hP.ensure h path

/-- What every splice keeps is kept where an entry of a section is set. -/
theorem setIn (l : Script.ArrayLiteral) (path : SectionPath) (key value : Literal) :
    P (document.setIn l path key value).1 := by
  unfold Document.setIn
  split
  · exact h
  · split
    · exact h
    · split
      · exact h
      · split
        · exact h
        · rename_i hsplice
          exact hP h hsplice
    · simp only
      split
      · exact h
      · rename_i hsplice
        exact hP h hsplice

/-- What every splice keeps is kept where an entry is set. -/
theorem setEntry (path : SectionPath) (key value : Literal) :
    P (document.setEntry path key value).1 := by
  have hensure : P (document.ensure path).1 := hP.ensure h path
  unfold Document.setEntry
  split
  · rename_i heq
    rwa [heq] at hensure
  · rename_i heq
    rw [heq] at hensure
    exact hP.setIn hensure _ _ _ _

end KeptBySplice

/-- The document that a text is read as; the empty one where it is none. -/
def ofText (source : Text) : Document := (Document.parse source).toOption.getD .empty

/-- A document made from a text is reachable. -/
theorem ofText_reachable (source : Text) : Reachable (ofText source) := by
  unfold ofText
  cases h : Document.parse source with
  | error e => exact .empty
  | ok document => exact .parse h

/-- **The file of a document is what its text is read as.** -/
theorem Reachable.isRead {document : Document} (h : Reachable document) : document.IsRead := by
  induction h with
  | parse h => exact (read_eq_ok_iff.1 h).2.2
  | empty => exact empty_isRead
  | setEntry h path key value ih => exact keptBySplice_isRead.setEntry ih path key value
  | ensureSection h path ih => exact keptBySplice_isRead.ensureSection ih path

end Document
end Config
end Scaffold
