/-
# Where a namespace is bound

A namespace that the manifest binds and nothing else spells is bound to its directory in the map
that is read (`addSpaces_bound`), and the longest of the namespaces that cover a class is the one
that is taken (`covering?_eq_some`).
-/

import Scaffold.Context

namespace Scaffold

namespace Table

variable {α : Type} {key : Text} {value : α} {table : Table α} {entry : Text × α}

/-- What a table holds once a key is set is the new entry or was there before. -/
theorem eq_or_mem_of_mem_insert (h : entry ∈ insert key value table) :
    entry = (key, value) ∨ entry ∈ table := by
  induction table with
  | nil => exact .inl (List.mem_singleton.1 h)
  | cons other table ih =>
    unfold insert at h
    split at h
    · exact (List.mem_cons.1 h).imp_right (List.mem_cons_of_mem _)
    · split at h
      · exact List.mem_cons.1 h
      · rcases List.mem_cons.1 h with rfl | h
        · exact .inr List.mem_cons_self
        · exact (ih h).imp_right (List.mem_cons_of_mem _)

/-- Entries of other keys stay where a key is set. -/
theorem mem_insert_of_ne (hne : entry.1 ≠ key) (h : entry ∈ table) :
    entry ∈ insert key value table := by
  induction table with
  | nil => cases h
  | cons other table ih =>
    unfold insert
    split
    · rename_i hkey
      rcases List.mem_cons.1 h with rfl | h
      · exact absurd hkey.symm hne
      · exact List.mem_cons_of_mem _ h
    · split
      · exact List.mem_cons_of_mem _ h
      · rcases List.mem_cons.1 h with rfl | h
        · exact List.mem_cons_self
        · exact List.mem_cons_of_mem _ (ih h)

end Table

/-! ### In the manifest -/

/-- The entry stands in the table, and no other entry spells its namespace. -/
structure Autoload.Sole (entry : Text × Path) (spaces : Table Path) : Prop where
  mem : entry ∈ spaces
  unique {other : Text × Path} (h : other ∈ spaces)
    (hspace : Autoload.normalize other.1 = Autoload.normalize entry.1) : other = entry

namespace Manifest

open Autoload (normalize Sole)

/-- One namespace more: it is skipped where it is bound already, or has no directory. -/
def declare (found : Table Path) (entry : Text × List Path) : Table Path :=
  if found.any (·.1 == entry.1) then found
  else
    match entry.2 with
    | [] => found
    | directory :: _ => Table.insert entry.1 (Path.dropTrailingSlashes directory) found

/-- The directories of a manifest are its declarations, one after the other. -/
theorem directories_eq_foldl (manifest : Manifest) :
    manifest.directories = (manifest.autoload ++ manifest.autoloadDev).foldl declare [] := rfl

/-- A declaration keeps the binding of a namespace that it does not spell in another way. -/
theorem sole_declare {bound : Text × Path} {found : Table Path} (h : Sole bound found)
    {entry : Text × List Path}
    (hentry : normalize entry.1 = normalize bound.1 → entry.1 = bound.1) :
    Sole bound (declare found entry) := by
  unfold declare
  split
  · exact h
  · rename_i hfresh
    have hne : bound.1 ≠ entry.1 := by
      rintro heq
      exact hfresh (List.any_eq_true.2 ⟨bound, h.mem, by rw [heq]; exact beq_self_eq_true _⟩)
    split
    · exact h
    · refine ⟨Table.mem_insert_of_ne hne h.mem, fun {other} hother hspace => ?_⟩
      rcases Table.eq_or_mem_of_mem_insert hother with rfl | hother
      · exact absurd (hentry hspace).symm hne
      · exact h.unique hother hspace

/-- **A namespace that the manifest binds first stays bound**, if it is spelled no other way. -/
theorem sole_directories {manifest : Manifest} {space : Text} {directory : Path}
    (hautoload : manifest.autoload = [(space, [directory])])
    (hdev : ∀ entry ∈ manifest.autoloadDev, normalize entry.1 = normalize space →
      entry.1 = space) :
    Sole (space, Path.dropTrailingSlashes directory) manifest.directories := by
  rw [directories_eq_foldl, hautoload, List.singleton_append, List.foldl_cons]
  have hstart : Sole (space, Path.dropTrailingSlashes directory)
      (declare [] (space, [directory])) :=
    ⟨List.mem_singleton_self _, fun h _ => List.mem_singleton.1 h⟩
  generalize declare [] (space, [directory]) = found at hstart ⊢
  generalize manifest.autoloadDev = dev at hdev ⊢
  induction dev generalizing found with
  | nil => exact hstart
  | cons entry dev ih =>
    obtain ⟨hentry, hdev⟩ := List.forall_mem_cons.1 hdev
    exact ih _ (sole_declare hstart hentry) hdev

end Manifest

namespace Autoload

variable {autoload : Autoload} {mapping : Mapping}

/-! ### In the map -/

/-- What mappings hold once a namespace is bound is the new mapping or was there before. -/
theorem mem_bind {space : Text} {directory : Path} {mappings : List Mapping}
    (h : mapping ∈ bind space directory mappings) :
    mapping = ⟨space, directory⟩ ∨ mapping ∈ mappings := by
  induction mappings with
  | nil => exact .inl (List.mem_singleton.1 h)
  | cons other mappings ih =>
    unfold bind at h
    split at h
    · exact (List.mem_cons.1 h).imp_right (List.mem_cons_of_mem _)
    · rcases List.mem_cons.1 h with rfl | h
      · exact .inr List.mem_cons_self
      · exact (ih h).imp_right (List.mem_cons_of_mem _)

/-- A namespace is bound in place, or after the others if it is new. -/
theorem map_space_bind (space : Text) (directory : Path) (mappings : List Mapping) :
    (bind space directory mappings).map Mapping.space =
      if space ∈ mappings.map Mapping.space then mappings.map Mapping.space
      else mappings.map Mapping.space ++ [space] := by
  induction mappings with
  | nil => rfl
  | cons first mappings ih =>
    unfold bind
    by_cases hfirst : first.space = space
    · rw [if_pos hfirst, List.map_cons, List.map_cons, hfirst, if_pos List.mem_cons_self]
    · rw [if_neg hfirst, List.map_cons, List.map_cons, ih]
      have hmem : space ∈ first.space :: mappings.map Mapping.space ↔
          space ∈ mappings.map Mapping.space :=
        List.mem_cons.trans (or_iff_right (Ne.symm hfirst))
      simp only [hmem]
      split <;> rfl

/-- Binding a namespace unbinds none. -/
theorem exists_mem_bind {space other : Text} {directory : Path} {mappings : List Mapping}
    (h : other = space ∨ ∃ mapping ∈ mappings, mapping.space = other) :
    ∃ mapping ∈ bind space directory mappings, mapping.space = other := by
  have hmem : other ∈ (bind space directory mappings).map Mapping.space := by
    rw [map_space_bind]
    split
    · rename_i hspace
      rcases h with rfl | h
      · exact hspace
      · exact List.mem_map.2 h
    · rcases h with rfl | h
      · exact List.mem_append_right _ (List.mem_singleton_self _)
      · exact List.mem_append_left _ (List.mem_map.2 h)
  exact List.mem_map.1 hmem

end Autoload

namespace Context

open Autoload (normalize)

variable {project : Project} {autoload : Autoload} {spaces : Table Path}

/-- A mapping stands in the extended map if it was there or comes from the table. -/
theorem mem_addSpaces {mapping : Mapping}
    (h : mapping ∈ (addSpaces project autoload spaces).mappings) :
    mapping ∈ autoload.mappings ∨
      ∃ entry ∈ spaces, mapping = ⟨normalize entry.1, directory project entry.2⟩ := by
  induction spaces generalizing autoload with
  | nil => exact .inl h
  | cons entry spaces ih =>
    rcases ih h with h | ⟨other, hother, rfl⟩
    · rcases Autoload.mem_bind h with rfl | h
      · exact .inr ⟨entry, List.mem_cons_self, rfl⟩
      · exact .inl h
    · exact .inr ⟨other, List.mem_cons_of_mem _ hother, rfl⟩

/-- A namespace that was mapped, or is in the table, is mapped. -/
theorem exists_mem_addSpaces (project : Project) {space : Text}
    (h : (∃ mapping ∈ autoload.mappings, mapping.space = space) ∨
      ∃ entry ∈ spaces, normalize entry.1 = space) :
    ∃ mapping ∈ (addSpaces project autoload spaces).mappings, mapping.space = space := by
  induction spaces generalizing autoload with
  | nil =>
    rcases h with h | ⟨entry, hentry, -⟩
    · exact h
    · cases hentry
  | cons entry spaces ih =>
    refine ih (h.elim (fun h => .inl (Autoload.exists_mem_bind (.inr h))) ?_)
    rintro ⟨other, hother, rfl⟩
    rcases List.mem_cons.1 hother with rfl | hother
    · exact .inl (Autoload.exists_mem_bind (.inl rfl))
    · exact .inr ⟨other, hother, rfl⟩

/-- **A namespace that a table spells one way is bound to its directory.** -/
theorem addSpaces_bound (project : Project) {entry : Text × Path} (h : Autoload.Sole entry spaces) :
    ⟨normalize entry.1, directory project entry.2⟩ ∈
        (addSpaces project .empty spaces).mappings ∧
      ∀ mapping ∈ (addSpaces project .empty spaces).mappings,
        mapping.space = normalize entry.1 → mapping.directory = directory project entry.2 := by
  have hdirectory : ∀ mapping ∈ (addSpaces project .empty spaces).mappings,
      mapping.space = normalize entry.1 → mapping.directory = directory project entry.2 := by
    intro mapping hmapping hspace
    rcases mem_addSpaces hmapping with hempty | ⟨other, hother, rfl⟩
    · cases hempty
    · rw [h.unique hother hspace]
  refine ⟨?_, hdirectory⟩
  have hbound : (∃ mapping ∈ Autoload.empty.mappings, mapping.space = normalize entry.1) ∨
      ∃ other ∈ spaces, normalize other.1 = normalize entry.1 := .inr ⟨entry, h.mem, rfl⟩
  obtain ⟨⟨space, found⟩, hmapping, hspace⟩ := exists_mem_addSpaces project hbound
  obtain rfl : space = normalize entry.1 := hspace
  obtain rfl : found = directory project entry.2 := hdirectory _ hmapping rfl
  exact hmapping

end Context

namespace Autoload

variable {autoload : Autoload} {best : Option Mapping} {mapping : Mapping} {name : ClassName}

/-! ### The longest namespace -/

/-- A mapping as long as the best so far takes its place. -/
theorem longer_eq_some (hbest : ∀ found ∈ best, found.space.length ≤ mapping.space.length) :
    longer best mapping = some mapping := by
  cases best with
  | none => rfl
  | some found => exact if_pos (hbest found rfl)

/-- The longer of two mappings is one of them. -/
theorem mem_longer {found : Mapping} (h : found ∈ longer best mapping) :
    found = mapping ∨ found ∈ best := by
  cases best with
  | none => exact .inl (Option.some.inj h).symm
  | some other =>
    dsimp only [longer] at h
    split at h
    · exact .inl (Option.some.inj h).symm
    · exact .inr h

/-- A mapping that is longer than all others is the one that is found. -/
theorem foldl_longer {mappings : List Mapping}
    (hbest : ∀ found ∈ best, found = mapping ∨ found.space.length < mapping.space.length)
    (hmem : mapping ∈ best ∨ mapping ∈ mappings)
    (hlongest : ∀ other ∈ mappings, other = mapping ∨ other.space.length < mapping.space.length) :
    mappings.foldl longer best = some mapping := by
  induction mappings generalizing best with
  | nil => exact hmem.resolve_right List.not_mem_nil
  | cons first mappings ih =>
    obtain ⟨hfirst, hrest⟩ := List.forall_mem_cons.1 hlongest
    refine ih (fun found hfound => ?_) ?_ hrest
    · rcases mem_longer hfound with rfl | hfound
      · exact hfirst
      · exact hbest found hfound
    · rcases hfirst with rfl | hshorter
      · have hle : ∀ found ∈ best, found.space.length ≤ first.space.length := fun found hfound =>
          (hbest found hfound).elim
            (fun h => h ▸ Nat.le_refl _) Nat.le_of_lt
        exact .inl (longer_eq_some hle)
      · rcases hmem with hmem | hmem
        · left
          rw [Option.mem_def.1 hmem]
          exact if_neg (by omega)
        · rcases List.mem_cons.1 hmem with rfl | hmem
          · exact absurd hshorter (Nat.lt_irrefl _)
          · exact .inr hmem

/-- **The longest namespace counts.** -/
theorem covering?_eq_some (hmem : mapping ∈ autoload.mappings)
    (hcovers : Mapping.covers mapping name = true)
    (hlongest : ∀ other ∈ autoload.mappings, Mapping.covers other name = true →
      other = mapping ∨ other.space.length < mapping.space.length) :
    autoload.covering? name = some mapping := by
  refine foldl_longer nofun (.inr (List.mem_filter.2 ⟨hmem, hcovers⟩)) fun other hother => ?_
  obtain ⟨hother, hname⟩ := List.mem_filter.1 hother
  exact hlongest other hother hname

end Autoload
end Scaffold
