/-
# Runs of operations

A document that was read or started empty is worked on by some operations, one after another. The
paths and the literals are any, so a name that is no class may put new items or an open comment into
the text, and an operation may fail with half its work done. Still the document is after each of
them what its own text is read as (`parse_render_run`).
-/

import Scaffold.Proofs.Document.Reachable

namespace Scaffold
namespace Config

/-- An operation on a document. -/
inductive Operation where
  /-- Looks a section up. -/
  | find (path : SectionPath)
  /-- Finds a section and creates what is missing of it. -/
  | ensure (path : SectionPath)
  /-- Binds a key in a section. -/
  | set (path : SectionPath) (key value : Literal)

namespace Operation

/-- The document after an operation, and why the operation failed if it did. -/
def apply (document : Document) : Operation → Document × Except DocumentError Unit
  | find path => (document, (document.sectionAt path).map fun _ => ())
  | ensure path => (document.ensureSection path).map id (·.map fun _ => ())
  | set path key value => (document.setEntry path key value).map id (·.map fun _ => ())

/-- The document after some operations. A failure does not end them. -/
def run (document : Document) (operations : List Operation) : Document :=
  operations.foldl (fun document operation => (operation.apply document).1) document

open Document (KeptBySplice)

/-- **One operation keeps what splices keep.** -/
theorem apply_kept {P : Document → Prop} (hP : KeptBySplice P) {document : Document}
    (h : P document) (operation : Operation) : P (operation.apply document).1 := by
  cases operation with
  | find path => exact h
  | ensure path => exact hP.ensureSection h path
  | set path key value => exact hP.setEntry h path key value

/-- **A run keeps what splices keep.** -/
theorem run_kept {P : Document → Prop} (hP : KeptBySplice P) {document : Document}
    (h : P document) (operations : List Operation) : P (run document operations) := by
  induction operations generalizing document with
  | nil => exact h
  | cons operation operations ih => exact ih (apply_kept hP h operation)

/-- **A document is what its text is read as.**  However a document is worked on, its text can be
read, and is read as the tokens, the names and the array literal that the document has; whether it
was started empty does not change. -/
theorem parse_render_run {document : Document}
    (h : document = .empty ∨ ∃ source, Document.parse source = .ok document)
    (operations : List Operation) :
    Document.parse (run document operations).render =
        .ok { run document operations with created := false } ∧
      (run document operations).created = document.created := by
  have hread : document.IsRead := by
    rcases h with rfl | ⟨source, hsource⟩
    · exact Document.empty_isRead
    · exact (Document.read_eq_ok_iff.1 hsource).2.2
  have hread' : (run document operations).IsRead :=
    run_kept Document.keptBySplice_isRead hread operations
  have hcreated : (run document operations).created = document.created :=
    run_kept (Document.keptBySplice_created document.created) rfl operations
  exact ⟨Document.read_eq_ok_iff.2 ⟨rfl, rfl, hread'⟩, hcreated⟩

/-- A name that brings an item of its own, then one that opens a comment, where the section has been
created but the entry cannot be set, and then a section that is none. -/
theorem parse_render_run_injected :
    let operations : List Operation :=
      [.set ⟨["a".toList]⟩ (.string "k".toList) (.classRef "A::class, 'x' => B".toList),
        .set ⟨["b".toList]⟩ (.classRef "/*".toList) (.string "v".toList),
        .ensure ⟨["a".toList, "k".toList]⟩]
    let document := run .empty operations
    document.render = ("<?php\n\nreturn [\n    'a' => [\n        " ++
        "'k' => A::class, 'x' => B::class,\n    ],\n    'b' => [],\n];\n").toList ∧
      Document.parse document.render = .ok { document with created := false } ∧
      document.created = true := by
  intro operations document
  obtain ⟨hparse, hcreated⟩ := parse_render_run (Or.inl rfl) operations
  exact ⟨by decide +kernel, hparse, hcreated⟩

end Operation
end Config
end Scaffold
