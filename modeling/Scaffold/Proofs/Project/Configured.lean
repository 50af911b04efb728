/-
# Directories as they are configured

The manifest and the settings name the directory of a namespace by a text, and the text is trimmed
before it is seen from the project: a `./` in front goes, and so do the slashes at the end, for the
manifest twice. What the text names by its components stays the same
(`alike_directory_of_relative`), unless a slash is left in front: after `.//` the rest is absolute,
and the namespace is bound to a directory below the top and not below the project
(`alike_directory_of_slips`, `directory_slips`).
-/

import Scaffold.Proofs.Project.Alike
import Scaffold.Proofs.Project.Precedence

namespace Scaffold
namespace Path

variable {path : Path}

/-- Paths that are alike lead to the same place by their text alone. -/
theorem Alike.location_eq {other : Path} (h : Alike path other) :
    location path = location other := by
  unfold location
  rw [h.isAbsolute_eq]
  exact congrArg (Location.mk _) (h.walk_eq [])

/-- The path starts with a dot and two slashes, and goes on. -/
def Slips (path : Path) : Prop := ['.', '/', '/'] <+: dropTrailingSlashes path

instance : Decidable (Slips path) := inferInstanceAs (Decidable (_ <+: _))

/-- Slashes at the end do not make a directory slip. -/
theorem slips_dropTrailingSlashes : Slips (dropTrailingSlashes path) ↔ Slips path := by
  unfold Slips
  rw [dropTrailingSlashes_eq_rdropWhile, dropTrailingSlashes_eq_rdropWhile,
    List.rdropWhile_idempotent]

/-- A relative path stays relative without the slashes at its end. -/
theorem relative_dropTrailingSlashes (h : isAbsolute path = false) :
    isAbsolute (dropTrailingSlashes path) = false := by
  by_cases hnil : dropTrailingSlashes path = []
  · rw [hnil]
    rfl
  · rw [isAbsolute_dropTrailingSlashes hnil, h]

/-- A relative path is like itself without the slashes at its end. -/
theorem alike_dropTrailingSlashes_of_relative (h : isAbsolute path = false) :
    Alike (dropTrailingSlashes path) path :=
  ⟨(relative_dropTrailingSlashes h).trans h.symm, components_dropTrailingSlashes path⟩

/-- What is trimmed from a relative path makes it absolute just where it slips. -/
theorem isAbsolute_trimmed_iff (h : isAbsolute path = false) :
    isAbsolute (dropTrailingSlashes (dropDotSlash path)) = true ↔ Slips path := by
  unfold dropDotSlash Text.after? Slips
  split
  · rename_i hprefix
    obtain ⟨rest, rfl⟩ := List.isPrefixOf_iff_prefix.1 hprefix
    change isAbsolute (dropTrailingSlashes rest) = true ↔ _
    rw [dropTrailingSlashes_append]
    cases hrest : dropTrailingSlashes rest with
    | nil => exact iff_of_false Bool.false_ne_true (by decide)
    | cons c more =>
      rw [if_neg (List.cons_ne_nil c more), isAbsolute_cons, beq_iff_eq]
      simp [List.cons_prefix_cons, eq_comm]
  · rename_i hprefix
    refine iff_of_false ?_ fun hslips => hprefix ?_
    · exact Bool.eq_false_iff.1 (relative_dropTrailingSlashes h)
    · have hdots : ['.', '/'] <+: ['.', '/', '/'] := List.prefix_append _ ['/']
      exact List.isPrefixOf_iff_prefix.2
        (hdots.trans (hslips.trans (List.rdropWhile_prefix _ path)))

/-- A directory that slips is written as a relative path. -/
theorem relative_of_slips (h : Slips path) : isAbsolute path = false := by
  obtain ⟨rest, hrest⟩ := h.trans (List.rdropWhile_prefix _ path)
  rw [← hrest]
  rfl

end Path

namespace Context

open Autoload (lastBound?)
open Manifest (spellings)

variable {σ : Type} [Disk (StateM σ)] {project : Project} {s : σ} {manifest : Manifest}
  {settings : Settings} {written : Path}

/-- **A relative directory keeps its meaning**, unless it slips. -/
theorem alike_directory_of_relative (project : Project) (h : Path.isAbsolute written = false)
    (hslips : ¬Path.Slips written) :
    Path.Alike (directory project written) (project.resolve written) := by
  refine Path.Alike.join ⟨?_, ?_⟩ project.root
  · rw [h, Bool.eq_false_iff, Ne, Path.isAbsolute_trimmed_iff h]
    exact hslips
  · rw [Path.components_dropTrailingSlashes, Path.components_dropDotSlash]

/-- **A directory that slips leaves the project**: it is seen from the top. -/
theorem alike_directory_of_slips (project : Project) (h : Path.Slips written) :
    Path.Alike (directory project written) ('/' :: written) := by
  have habsolute := (Path.isAbsolute_trimmed_iff (Path.relative_of_slips h)).2 h
  rw [directory, Project.resolve, Path.join_of_isAbsolute habsolute]
  refine ⟨habsolute, ?_⟩
  rw [Path.components_dropTrailingSlashes, Path.components_dropDotSlash]
  exact (Path.components_append_slash [] written).symm

/-- The directory of a text, where slashes at its end may have been dropped before. -/
structure Seen (project : Project) (written found : Path) : Prop where
  relative : Path.isAbsolute written = false → ¬Path.Slips written →
    Path.Alike found (project.resolve written)
  slips : Path.Slips written → Path.Alike found ('/' :: written)

/-- A written directory is seen as the project resolves it. -/
theorem seen_directory (project : Project) (written : Path) :
    Seen project written (directory project written) :=
  ⟨alike_directory_of_relative project, alike_directory_of_slips project⟩

/-- So it is without the slashes at its end. -/
theorem seen_directory_dropTrailingSlashes (project : Project) (written : Path) :
    Seen project written (directory project (Path.dropTrailingSlashes written)) := by
  refine ⟨fun h hslips => ?_, fun hslips => ?_⟩
  · have hdropped := alike_directory_of_relative project (Path.relative_dropTrailingSlashes h)
      (Path.slips_dropTrailingSlashes.not.2 hslips)
    exact hdropped.trans ((Path.alike_dropTrailingSlashes_of_relative h).join project.root)
  · refine (alike_directory_of_slips project (Path.slips_dropTrailingSlashes.2 hslips)).trans ?_
    refine ⟨rfl, ?_⟩
    change Path.components ([] ++ '/' :: _) = Path.components ([] ++ '/' :: _)
    rw [Path.components_append_slash, Path.components_append_slash,
      Path.components_dropTrailingSlashes]

/-- The directories that the settings and the manifest have for a normalized namespace, as they are
written. -/
def configured (manifest : Manifest) (settings : Settings) (space : Text) : List Path :=
  ((settings.spaces.filter fun entry => Autoload.normalize entry.1 = space) ++
    spellings manifest.autoload space ++ spellings manifest.autoloadDev space).map Prod.snd

/-- What is bound to a namespace is one of the directories configured for it. -/
theorem exists_seen (project : Project) {space : Text}
    (h : configured manifest settings space ≠ []) :
    ∃ found, (Autoload.bindAll (bindings project manifest settings)).find? space = some found ∧
      ∃ written ∈ configured manifest settings space, Seen project written found := by
  rw [find?_bindings]
  cases hset : lastBound? settings.spaces space with
  | some found =>
    obtain ⟨name, hmem, hname⟩ := Autoload.mem_of_lastBound? hset
    refine ⟨_, rfl, found, ?_, seen_directory project found⟩
    exact List.mem_map.2 ⟨(name, found), by simp [hmem, hname], rfl⟩
  | none =>
    have hunset :
        (settings.spaces.filter fun entry => Autoload.normalize entry.1 = space) = [] := by
      refine List.filter_eq_nil_iff.2 fun entry hentry hspace => ?_
      have hsome := Autoload.isSome_lastBound?_iff.2 ⟨entry, hentry, of_decide_eq_true hspace⟩
      rw [hset] at hsome
      cases hsome
    rw [configured, hunset, List.nil_append] at h ⊢
    obtain ⟨entry, hentry⟩ := List.exists_mem_of_ne_nil _ (List.map_eq_nil_iff.not.1 h)
    obtain ⟨found, hfound⟩ := exists_lastBound?_directories (List.mem_append.1 hentry)
    obtain ⟨name, first, rfl, hfirst, -⟩ := exists_spelling hfound
    rw [hfound]
    refine ⟨_, rfl, first, ?_, seen_directory_dropTrailingSlashes project first⟩
    exact List.mem_map.2 ⟨(name, first), List.mem_append.2 (hfirst.imp_right And.right), rfl⟩

/-- **A configured directory keeps its meaning, or slips.**  The project has a manifest, or none
(`hdeclared`). A namespace for which directories are configured is bound, and what it is bound to
is one of them: a relative directory leads by its text alone where it does from the project, unless
it starts with `.//` and goes on. Then it leads where it does from the top. -/
theorem loadAutoload_lexical (hdeclared : Declared project s manifest) (settings : Settings) :
    ∃ autoload, (loadAutoload project settings : Action (StateM σ) Autoload).run.run s =
        (.ok autoload, s) ∧ ∀ space, configured manifest settings space ≠ [] →
      ∃ found, autoload.find? space = some found ∧
        ∃ written ∈ configured manifest settings space,
          (Path.isAbsolute written = false → ¬Path.Slips written →
            Path.location found = Path.location (project.resolve written)) ∧
          (Path.Slips written → Path.location found = Path.location ('/' :: written)) := by
  refine ⟨_, run_loadAutoload hdeclared settings, fun space hconfigured => ?_⟩
  obtain ⟨found, hfound, written, hwritten, hseen⟩ := exists_seen project hconfigured
  exact ⟨found, hfound, written, hwritten,
    fun h hslips => (hseen.relative h hslips).location_eq,
    fun hslips => (hseen.slips hslips).location_eq⟩

/-- Dots and slashes in a directory of the manifest and in one of the settings, and a directory that
slips. -/
theorem loadAutoload_lexical_at_dots :
    let text := "\x7b\"autoload\": \x7b\"psr-4\":".toList ++
      "\x7b\"App\": \".//./a/..//b//\", \"Lib\": \"././/lib/\"\x7d\x7d\x7d".toList
    let tree : FileTree := ⟨[([['p']], .directory), ([['p'], Manifest.fileName], .file text)], []⟩
    let manifest : Manifest :=
      ⟨[("App".toList, [".//./a/..//b//".toList]), ("Lib".toList, ["././/lib/".toList])], []⟩
    let settings : Settings :=
      { Settings.default with spaces := [("Set".toList, "..//set/./".toList)] }
    Declared ⟨"/p".toList⟩ tree manifest ∧
      ∃ autoload, ((loadAutoload ⟨"/p".toList⟩ settings :
          Action (StateM FileTree) Autoload).run.run tree).1 = .ok autoload ∧
        (autoload.find? "App\\".toList).map Path.location = some ⟨true, [['b']]⟩ ∧
        (autoload.find? "Lib\\".toList).map Path.location =
          some ⟨true, [['p'], "lib".toList]⟩ ∧
        (autoload.find? "Set\\".toList).map Path.location = some ⟨true, ["set".toList]⟩ := by
  intro text tree manifest settings
  have hdeclared : Declared ⟨"/p".toList⟩ tree manifest :=
    .of_nodeAt? "/p/composer.json".toList text (Script.eq_ok_of_toOption (by decide +kernel))
      (by decide +kernel) (Script.eq_ok_of_toOption (by decide +kernel))
  obtain ⟨autoload, hrun, hbound⟩ := loadAutoload_lexical hdeclared settings
  have hplace : ∀ space place, configured manifest settings space ≠ [] →
      (∀ written ∈ configured manifest settings space,
        if Path.Slips written then Path.location ('/' :: written) = place
        else Path.isAbsolute written = false ∧
          Path.location (Project.resolve ⟨"/p".toList⟩ written) = place) →
      (autoload.find? space).map Path.location = some place := by
    intro space place hconfigured hplaces
    obtain ⟨found, hfound, written, hwritten, hkept, hslips⟩ := hbound space hconfigured
    have hplace := hplaces written hwritten
    rw [hfound, Option.map_some]
    by_cases h : Path.Slips written
    · rw [if_pos h] at hplace
      exact congrArg some ((hslips h).trans hplace)
    · rw [if_neg h] at hplace
      exact congrArg some ((hkept hplace.1 h).trans hplace.2)
  exact ⟨hdeclared, autoload, congrArg Prod.fst hrun,
    hplace "App\\".toList _ (by decide +kernel) (by decide +kernel),
    hplace "Lib\\".toList _ (by decide +kernel) (by decide +kernel),
    hplace "Set\\".toList _ (by decide +kernel) (by decide +kernel)⟩

/-- A relative directory of the manifest, and one of the settings, that lead out of the project. -/
theorem directory_slips :
    let text := "\x7b\"autoload\": \x7b\"psr-4\": \x7b\"App\\\\\": \".//lib/\"\x7d\x7d\x7d".toList
    let tree : FileTree := ⟨[([['p']], .directory), ([['p'], Manifest.fileName], .file text)], []⟩
    let project : Project := ⟨"/p".toList⟩
    let settings : Settings :=
      { Settings.default with spaces := [("Set\\".toList, ".//set".toList)] }
    Path.isAbsolute ".//lib/".toList = false ∧ Path.isAbsolute ".//set".toList = false ∧
      ∃ autoload, ((loadAutoload project settings :
          Action (StateM FileTree) Autoload).run.run tree).1 = .ok autoload ∧
        autoload.find? "App\\".toList = some "/lib".toList ∧
        Path.location "/lib".toList ≠ Path.location (project.resolve ".//lib/".toList) ∧
        autoload.find? "Set\\".toList = some "/set".toList ∧
        Path.location "/set".toList ≠ Path.location (project.resolve ".//set".toList) := by
  intro text tree project settings
  exact ⟨rfl, rfl,
    ⟨[⟨"App\\".toList, "/lib".toList⟩, ⟨"Set\\".toList, "/set".toList⟩]⟩,
    Script.eq_ok_of_toOption (by decide +kernel), by decide +kernel, by decide +kernel,
    by decide +kernel, by decide +kernel⟩

end Context
end Scaffold
