/-
# Edits are confined to their section

Setting an entry and creating a section change the text between the brackets of the returned array
alone. A section that is neither on the way to the edited one nor under the entry that is set is
written as before, and each section on the way is but for the value of the entry that leads on
(`edits_confined`).
-/

import Scaffold.Proofs.Document.Entries

namespace Scaffold
namespace Config
namespace Document

/-- What lookups tell of an edit of the section at `path` that leaves the sections under the keys
`inside` to their fate: nothing has changed around the returned array, nor in the sections beside
the path, and those on the way have one entry changed. -/
structure Confined (document document' : Document) (path : SectionPath)
    (inside : List Text → Prop) : Prop where
  names_eq : document'.file.names = document.file.names
  head_eq : document'.source.take document'.file.root.openStop =
    document.source.take document.file.root.openStop
  tail_eq : document'.source.drop document'.file.root.close =
    document.source.drop document.file.root.close
  beside : ∀ {q : SectionPath} {place : Section}, document.sectionAt q = .ok place →
    ¬q.keys <+: path.keys → ¬inside q.keys → ∃ place', document'.sectionAt q = .ok place' ∧
      SameSection document document' place.literal place'.literal
  way : ∀ {q : SectionPath} {next : Text} {place : Section}, document.sectionAt q = .ok place →
    q.keys ++ [next] <+: path.keys → ∃ place', document'.sectionAt q = .ok place' ∧
      OneEntry document document' next place.literal place'.literal

variable {document document' : Document} {path : SectionPath}

/-- A frame that keeps the sections beside the path confines the changes to it. -/
theorem Framed.confined {inside : List Text → Prop}
    (h : Framed document document' (fun q => ¬q <+: path.keys ∧ ¬inside q) path.keys) :
    Confined document document' path inside where
  names_eq := h.names_eq
  head_eq := h.head_eq
  tail_eq := h.tail_eq
  beside hplace hoff hinside := by
    obtain ⟨m', hm', hsame⟩ := h.same ⟨hoff, hinside⟩ (sectionAt_eq_ok_iff.1 hplace).2
    exact ⟨_, sectionAt_of_leads hm', hsame⟩
  way hplace hway := by
    obtain ⟨m', hm', hone⟩ := h.way hway (sectionAt_eq_ok_iff.1 hplace).2
    exact ⟨_, sectionAt_of_leads hm', hone⟩

/-- Setting an entry keeps what does not lie on the way to it or below it. -/
theorem setEntry_framed (hread : document.IsRead) {key value : Literal} {change : Change}
    (hk : key.Representable) (hv : value.Representable)
    (h : document.setEntry path key value = (document', .ok change)) :
    Framed document document'
      (fun q => ¬q <+: path.keys ∧ ¬path.keys ++ [key.evaluated] <+: q) path.keys := by
  obtain ⟨document₁, m, hensured, -, hset⟩ := setEntry_cases hread hk hv h
  have hsection : Framed document document₁
      (fun q => ¬q <+: path.keys ∧ ¬path.keys ++ [key.evaluated] <+: q) path.keys :=
    hensured.framed.mono (fun _ hq => hq.1) (List.prefix_refl _)
  exact hsection.trans ((hset.framed hensured.leads).mono (fun _ hq => hq) (List.prefix_append _ _))

/-- Ensuring a section keeps what does not lie on the way to it. -/
theorem ensureSection_framed (hread : document.IsRead) {place : Section}
    (h : document.ensureSection path = (document', .ok place)) :
    Framed document document' (fun q => ¬q <+: path.keys) path.keys := by
  have hwalk : ∀ e, document.locate path ≠ .error e := by
    intro e he
    rw [ensureSection, ensure_of_error he] at h
    cases h
  obtain ⟨document₁, m, hensure, hensured⟩ := exists_ensured hread hwalk
  rw [ensureSection, hensure] at h
  cases h
  exact hensured.framed

/-- **An edit is confined to its section.** What is under the entry that is set may change with it;
creating a section changes nothing beside the path. -/
theorem edits_confined (hd : document.Reachable) (path : SectionPath) :
    (∀ {key value : Literal} {document' : Document} {change : Change}, key.Representable →
      value.Representable → document.setEntry path key value = (document', .ok change) →
      Confined document document' path fun q => path.keys ++ [key.evaluated] <+: q) ∧
    ∀ {document' : Document} {place : Section},
      document.ensureSection path = (document', .ok place) →
      Confined document document' path fun _ => False :=
  ⟨fun hk hv h => (setEntry_framed hd.isRead hk hv h).confined,
    fun h => ((ensureSection_framed hd.isRead h).mono (fun _ hq => hq.1)
      (List.prefix_refl _)).confined⟩

/-- The section beside a new one is written as before. -/
theorem edits_confined_beside :
    let document := ofText "<?php\nreturn ['a' => ['k' => 'v']];\n".toList
    let created : SectionPath := ⟨["b".toList]⟩
    ∃ place, document.sectionAt ⟨["a".toList]⟩ = .ok place ∧
      (∃ document' place', document.setEntry created (.string "k".toList) (.string "w".toList) =
          (document', .ok .inserted) ∧ document'.sectionAt ⟨["a".toList]⟩ = .ok place' ∧
        SameSection document document' place.literal place'.literal) ∧
      ∃ document' section' place', document.ensureSection created = (document', .ok section') ∧
        document'.sectionAt ⟨["a".toList]⟩ = .ok place' ∧
        SameSection document document' place.literal place'.literal := by
  intro document created
  have hplace : document.sectionAt ⟨["a".toList]⟩ =
      .ok ((document.sectionAt ⟨["a".toList]⟩).toOption.getD ⟨.root, document.file.root⟩) :=
    Script.eq_ok_of_toOption (by decide +kernel)
  have hset : document.setEntry created (.string "k".toList) (.string "w".toList) =
      (_, .ok .inserted) :=
    Prod.ext rfl (Script.eq_ok_of_toOption (by decide +kernel))
  have hensure : document.ensureSection created = (_, .ok ((document.ensureSection
      created).2.toOption.getD ⟨.root, document.file.root⟩)) :=
    Prod.ext rfl (Script.eq_ok_of_toOption (by decide +kernel))
  have hstring : ∀ text, Literal.Representable (.string text) := fun _ => trivial
  have hoff : ¬["a".toList] <+: created.keys := by decide
  obtain ⟨hkept, hkept'⟩ := edits_confined (ofText_reachable
    "<?php\nreturn ['a' => ['k' => 'v']];\n".toList) created
  obtain ⟨place₁, hplace₁, hsame₁⟩ :=
    (hkept (hstring _) (hstring _) hset).beside hplace hoff (by decide)
  obtain ⟨place₂, hplace₂, hsame₂⟩ := (hkept' hensure).beside hplace hoff not_false
  exact ⟨_, hplace, ⟨_, place₁, hset, hplace₁, hsame₁⟩, _, _, place₂, hensure, hplace₂, hsame₂⟩

end Document
end Config
end Scaffold
