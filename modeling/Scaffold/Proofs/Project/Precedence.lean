/-
# Which directory a namespace is bound to

| a namespace is spelled | directory |
| --- | --- |
| in the settings | the one of its last spelling there |
| else in the manifest | the one of its greatest spelling there |

The manifest has two places, and the first one decides for a spelling that stands in both
(`Manifest.lookup_directories`). Which spelling is taken does not depend on the place: a namespace
of `autoload` keeps its directory only if `autoload-dev` has no greater spelling of it
(`loadAutoload_precedence`, `dev_takes_namespace`).
-/

import Scaffold.Proofs.Project.Longest

namespace Scaffold

/-- Of two different texts one is before the other. -/
theorem Text.lt_of_not_lt {text other : Text} (h : ¬other < text) (hne : text ≠ other) :
    text < other := by
  by_contra hlt
  exact hne (List.le_antisymm h hlt)

/-! ### Tables -/

namespace Table

variable {α : Type} {key : Text} {value : α} {table : Table α}

/-- A table is searched from its first entry on. -/
theorem lookup_cons (first : Text) (found : α) (table : Table α) (other : Text) :
    List.lookup other ((first, found) :: table) =
      if other = first then some found else table.lookup other := by
  rw [List.lookup_cons]
  by_cases h : other = first
  · rw [if_pos h, beq_iff_eq.2 h]
  · rw [if_neg h, beq_eq_false_iff_ne.2 h]

/-- One key is bound by an insertion, and the others are left as they were. -/
theorem lookup_insert (key : Text) (value : α) (table : Table α) (other : Text) :
    (insert key value table).lookup other =
      if other = key then some value else table.lookup other := by
  induction table with
  | nil => exact lookup_cons key value [] other
  | cons entry table ih =>
    obtain ⟨first, found⟩ := entry
    unfold insert
    by_cases hkey : key = first
    · rw [if_pos hkey, lookup_cons, lookup_cons, hkey]
      split <;> rfl
    · rw [if_neg hkey]
      by_cases hlt : key < first
      · rw [if_pos hlt, lookup_cons]
      · rw [if_neg hlt, lookup_cons, lookup_cons, ih]
        by_cases h : other = first
        · rw [if_pos h, if_pos h, if_neg (h ▸ Ne.symm hkey)]
        · rw [if_neg h, if_neg h]

/-- The keys of a table ascend. -/
def Sorted (table : Table α) : Prop := table.Pairwise (·.1 < ·.1)

/-- A sorted table stays sorted where a key is set. -/
theorem Sorted.insert (h : Sorted table) (key : Text) (value : α) :
    Sorted (insert key value table) := by
  induction table with
  | nil => exact List.pairwise_singleton ..
  | cons entry table ih =>
    obtain ⟨first, found⟩ := entry
    obtain ⟨hfirst, hrest⟩ := List.pairwise_cons.1 h
    unfold Table.insert
    by_cases hkey : key = first
    · subst hkey
      rw [if_pos rfl]
      exact List.pairwise_cons.2 ⟨hfirst, hrest⟩
    · rw [if_neg hkey]
      by_cases hlt : key < first
      · rw [if_pos hlt]
        refine List.pairwise_cons.2 ⟨fun entry hentry => ?_, h⟩
        rcases List.mem_cons.1 hentry with rfl | hentry
        · exact hlt
        · exact List.lt_trans hlt (hfirst entry hentry)
      · rw [if_neg hlt]
        refine List.pairwise_cons.2 ⟨fun entry hentry => ?_, ih hrest⟩
        rcases eq_or_mem_of_mem_insert hentry with rfl | hentry
        · exact Text.lt_of_not_lt hlt (Ne.symm hkey)
        · exact hfirst entry hentry

/-- What stands in a table is what is found. -/
theorem Sorted.lookup_eq_some (h : Sorted table) (hmem : (key, value) ∈ table) :
    table.lookup key = some value := by
  obtain ⟨before, after, rfl⟩ := List.append_of_mem hmem
  refine List.lookup_eq_some_iff.2 ⟨before, after, rfl, fun entry hentry => ?_⟩
  have hlt : entry.1 < key :=
    (List.pairwise_append.1 h).2.2 entry hentry _ List.mem_cons_self
  exact bne_iff_ne.2 fun heq => List.lt_irrefl key (heq ▸ hlt)

/-- What is found in a table stands in it. -/
theorem mem_of_lookup (h : table.lookup key = some value) : (key, value) ∈ table := by
  obtain ⟨before, after, rfl, -⟩ := List.lookup_eq_some_iff.1 h
  exact List.mem_append_right _ List.mem_cons_self

end Table

/-! ### The manifest -/

namespace Manifest

/-- The first directory of the first entry that has a key and directories. -/
def first? (entries : Table (List Path)) (written : Text) : Option Path :=
  entries.findSome? fun entry => if entry.1 = written then entry.2.head? else none

/-- A first directory is that of an entry. -/
theorem mem_of_first? {entries : Table (List Path)} {written : Text} {directory : Path}
    (h : first? entries written = some directory) :
    ∃ more, (written, directory :: more) ∈ entries := by
  obtain ⟨entry, hentry, hhead⟩ := List.exists_of_findSome?_eq_some h
  obtain ⟨key, candidates⟩ := entry
  split at hhead
  · rename_i hkey
    obtain ⟨more, hmore⟩ := List.head?_eq_some_iff.1 hhead
    obtain rfl : key = written := hkey
    obtain rfl : candidates = directory :: more := hmore
    exact ⟨more, hentry⟩
  · cases hhead

/-- An entry with a directory has a first one. -/
theorem isSome_first? {entries : Table (List Path)} {written : Text} {directory : Path}
    {more : List Path} (h : (written, directory :: more) ∈ entries) :
    (first? entries written).isSome := by
  rw [first?, List.findSome?_isSome_iff]
  exact ⟨_, h, by simp⟩

/-- One entry more binds its key, unless the key is bound or the entry has no directory. -/
theorem lookup_declare (found : Table Path) (entry : Text × List Path) (written : Text) :
    (declare found entry).lookup written =
      (found.lookup written).or
        ((if entry.1 = written then entry.2.head? else none).map Path.dropTrailingSlashes) := by
  obtain ⟨key, candidates⟩ := entry
  have hany : found.any (·.1 == key) = (found.lookup key).isSome := by
    rw [Bool.eq_iff_iff, List.lookup_isSome_iff, List.any_eq_true]
    exact exists_congr fun entry => and_congr_right fun _ => by rw [beq_iff_eq, beq_iff_eq, eq_comm]
  unfold declare
  dsimp only
  rw [hany]
  by_cases hkey : key = written
  · subst hkey
    cases hfound : found.lookup key with
    | some directory => simp [hfound]
    | none =>
      cases candidates with
      | nil => simp [hfound]
      | cons directory more => simp [Table.lookup_insert]
  · rw [if_neg hkey, Option.map_none, Option.or_none]
    split
    · rfl
    · cases candidates with
      | nil => rfl
      | cons directory more =>
        dsimp only
        rw [Table.lookup_insert, if_neg (Ne.symm hkey)]

/-- **The first place of the manifest decides for a spelling.** -/
theorem lookup_directories (manifest : Manifest) (written : Text) :
    manifest.directories.lookup written =
      ((first? manifest.autoload written).or (first? manifest.autoloadDev written)).map
        Path.dropTrailingSlashes := by
  have hdeclared : ∀ (entries : Table (List Path)),
      (entries.foldl declare []).lookup written =
        (first? entries written).map Path.dropTrailingSlashes := by
    intro entries
    induction entries using List.reverseRecOn with
    | nil => rfl
    | append_singleton entries entry ih =>
      rw [List.foldl_concat, lookup_declare, ih, first?, first?, List.findSome?_append,
        Option.map_or]
      simp
  rw [directories_eq_foldl, hdeclared, first?, List.findSome?_append]
  rfl

/-- The spellings of a normalized namespace in one place of the manifest, each with its first
directory. An empty list of directories does not count. -/
def spellings (place : Table (List Path)) (space : Text) : List (Text × Path) :=
  place.filterMap fun entry =>
    if Autoload.normalize entry.1 = space then entry.2.head?.map (entry.1, ·) else none

/-- The spellings of a namespace, each with its first directory. -/
theorem mem_spellings_iff {place : Table (List Path)} {space written : Text} {first : Path} :
    (written, first) ∈ spellings place space ↔
      Autoload.normalize written = space ∧ ∃ more, (written, first :: more) ∈ place := by
  rw [spellings, List.mem_filterMap]
  constructor
  · rintro ⟨⟨key, candidates⟩, hentry, hfirst⟩
    split at hfirst
    · rename_i hspace
      obtain ⟨found, hfound, heq⟩ := Option.map_eq_some_iff.1 hfirst
      obtain ⟨rfl, rfl⟩ := Prod.mk.inj heq
      obtain ⟨more, rfl⟩ := List.head?_eq_some_iff.1 hfound
      exact ⟨hspace, more, hentry⟩
    · cases hfirst
  · rintro ⟨hspace, more, hentry⟩
    exact ⟨_, hentry, by simp [hspace]⟩

/-- The directories of a manifest are sorted by their namespaces. -/
theorem sorted_directories (manifest : Manifest) : manifest.directories.Sorted := by
  rw [directories_eq_foldl]
  induction manifest.autoload ++ manifest.autoloadDev using List.reverseRecOn with
  | nil => exact List.Pairwise.nil
  | append_singleton entries entry ih =>
    rw [List.foldl_concat]
    unfold declare
    split
    · exact ih
    · split
      · exact ih
      · exact ih.insert _ _

end Manifest

namespace Autoload

variable {bindings others : List (Text × Path)} {space : Text} {directory : Path}

/-! ### The last binding -/

/-- Of two lists of bindings, the later one counts first. -/
theorem lastBound?_append (bindings others : List (Text × Path)) (space : Text) :
    lastBound? (bindings ++ others) space =
      (lastBound? others space).or (lastBound? bindings space) := by
  rw [lastBound?, List.reverse_append, List.find?_append, Option.map_or]
  rfl

/-- The last binding, with another directory for each. -/
theorem lastBound?_map (f : Path → Path) (bindings : List (Text × Path)) (space : Text) :
    lastBound? (bindings.map fun binding => (binding.1, f binding.2)) space =
      (lastBound? bindings space).map f := by
  rw [lastBound?, ← List.map_reverse, List.find?_map, Option.map_map, lastBound?, Option.map_map]
  rfl

/-- The last binding is one of the bindings. -/
theorem mem_of_lastBound? (h : lastBound? bindings space = some directory) :
    ∃ written, (written, directory) ∈ bindings ∧ normalize written = space := by
  obtain ⟨⟨written, found⟩, hfind, rfl⟩ := Option.map_eq_some_iff.1 h
  have hspace := List.find?_some hfind
  exact ⟨written, List.mem_reverse.1 (List.mem_of_find?_eq_some hfind), beq_iff_eq.1 hspace⟩

/-- In a table, the greatest spelling of a namespace is the last one. -/
theorem exists_greatest {table : Table Path} (hsorted : table.Sorted)
    (h : lastBound? table space = some directory) :
    ∃ written, (written, directory) ∈ table ∧ normalize written = space ∧
      ∀ entry ∈ table, normalize entry.1 = space → ¬written < entry.1 := by
  obtain ⟨⟨written, found⟩, hfind, rfl⟩ := Option.map_eq_some_iff.1 h
  obtain ⟨hspace, after, before, hcut, hafter⟩ := List.find?_eq_some_iff_append.1 hfind
  have htable : table = before.reverse ++ (written, found) :: after.reverse := by
    rw [← List.reverse_reverse table, hcut]
    simp
  refine ⟨written, ?_, beq_iff_eq.1 hspace, fun entry hentry hsame hlt => ?_⟩
  · rw [htable]
    exact List.mem_append_right _ List.mem_cons_self
  · rw [htable] at hentry hsorted
    rcases List.mem_append.1 hentry with hentry | hentry
    · have hbefore := (List.pairwise_append.1 hsorted).2.2 entry hentry _ List.mem_cons_self
      exact List.lt_irrefl _ (List.lt_trans hlt hbefore)
    · rcases List.mem_cons.1 hentry with rfl | hentry
      · exact List.lt_irrefl _ hlt
      · have hother := hafter entry (List.mem_reverse.1 hentry)
        rw [beq_iff_eq.2 hsame] at hother
        cases hother

end Autoload

namespace Context

open Autoload (bindAll lastBound? normalize)
open Registration (run_bind run_lift run_ofExcept)

/-! ### The namespaces of a project -/

variable {σ : Type} [Disk (StateM σ)] {project : Project} {s : σ} {manifest : Manifest}

/-- What the project has as its manifest: the one that is read, or none at all. -/
inductive Declared (project : Project) (s : σ) : Manifest → Prop
  | absent
      (present : (project.isPresent Manifest.fileName : StateM σ Bool).run s = (false, s)) :
      Declared project s ⟨[], []⟩
  | read {text : Text} {manifest : Manifest}
      (present : (project.isPresent Manifest.fileName : StateM σ Bool).run s = (true, s))
      (read : (project.read Manifest.fileName : Action (StateM σ) Text).run.run s = (.ok text, s))
      (parse : Manifest.parse text = .ok manifest) : Declared project s manifest

/-- On a file tree the manifest is read from the file at its path. -/
theorem Declared.of_nodeAt? {tree : FileTree} (full : Path) (text : Text)
    (hconfine : project.confine Manifest.fileName = .ok full)
    (hnode : tree.nodeAt? full = some (.file text)) (hparse : Manifest.parse text = .ok manifest) :
    Declared project tree manifest := by
  refine .read ?_ ?_ hparse
  · rw [Project.run_isPresent, hconfine]
    exact congrArg (·.isSome, tree) hnode
  · rw [Project.run_read, hconfine]
    simp only [FileTree.read?_eq_some_iff.2 hnode]

/-- The namespaces of the manifest and then those of the settings, with the directories as seen
from the project. -/
def bindings (project : Project) (manifest : Manifest) (settings : Settings) :
    List (Text × Path) :=
  (manifest.directories ++ settings.spaces).map fun entry => (entry.1, directory project entry.2)

/-- The declared namespaces and then those of the settings are bound, one after the other. -/
theorem addSpaces_addSpaces (project : Project) (declared spaces : Table Path) :
    addSpaces project (addSpaces project .empty declared) spaces =
      bindAll ((declared ++ spaces).map fun entry => (entry.1, directory project entry.2)) := by
  rw [addSpaces, addSpaces, ← List.foldl_append, bindAll, List.foldl_map]
  rfl

/-- **Loading the namespaces of a project binds those of its manifest and of its settings.** -/
theorem run_loadAutoload (h : Declared project s manifest) (settings : Settings) :
    (loadAutoload project settings : Action (StateM σ) Autoload).run.run s =
      (.ok (bindAll (bindings project manifest settings)), s) := by
  have hspaces : (loadManifestSpaces project : Action (StateM σ) (Table Path)).run.run s =
      (.ok manifest.directories, s) := by
    unfold loadManifestSpaces
    cases h with
    | absent present => exact run_bind (run_lift present)
    | read present read parse =>
      rw [run_bind (run_lift present), if_pos rfl, run_bind read, parse]
      exact run_bind (run_ofExcept _ s)
  rw [bindings, ← addSpaces_addSpaces]
  exact run_bind hspaces

/-- The directory of a namespace is that of the settings, or else that of the manifest. -/
theorem find?_bindings (project : Project) (manifest : Manifest) (settings : Settings)
    (space : Text) : (bindAll (bindings project manifest settings)).find? space =
      ((lastBound? settings.spaces space).or (lastBound? manifest.directories space)).map
        (directory project) := by
  rw [Autoload.find?_bindAll, bindings, Autoload.lastBound?_map, Autoload.lastBound?_append]

open Manifest (spellings mem_spellings_iff)

/-- Every spelling in either place has a directory. -/
theorem exists_mem_directories {space written : Text} {first : Path}
    (h : (written, first) ∈ spellings manifest.autoload space ∨
      (written, first) ∈ spellings manifest.autoloadDev space) :
    normalize written = space ∧ ∃ found, (written, found) ∈ manifest.directories := by
  rw [mem_spellings_iff, mem_spellings_iff] at h
  refine ⟨h.elim And.left And.left, ?_⟩
  have hfirst : ((Manifest.first? manifest.autoload written).or
      (Manifest.first? manifest.autoloadDev written)).isSome := by
    rw [Option.isSome_or, Bool.or_eq_true]
    exact h.imp (fun ⟨_, _, hmem⟩ => Manifest.isSome_first? hmem)
      fun ⟨_, _, hmem⟩ => Manifest.isSome_first? hmem
  rw [← Option.isSome_map (f := Path.dropTrailingSlashes), ← Manifest.lookup_directories,
    Option.isSome_iff_exists] at hfirst
  exact hfirst.imp fun found => Table.mem_of_lookup

/-- The manifest binds what it spells. -/
theorem exists_lastBound?_directories {space : Text} {entry : Text × Path}
    (h : entry ∈ spellings manifest.autoload space ∨
      entry ∈ spellings manifest.autoloadDev space) :
    ∃ found, lastBound? manifest.directories space = some found := by
  obtain ⟨hspace, found, hfound⟩ := exists_mem_directories h
  exact Option.isSome_iff_exists.1 (Autoload.isSome_lastBound?_iff.2 ⟨_, hfound, hspace⟩)

/-- What the manifest binds a namespace to is the directory of its greatest spelling. Where that
stands in both places, the first place decides. -/
theorem exists_spelling {space : Text} {found : Path}
    (h : lastBound? manifest.directories space = some found) :
    ∃ written first, found = Path.dropTrailingSlashes first ∧
      ((written, first) ∈ spellings manifest.autoload space ∨
        (∀ other, (written, other) ∉ spellings manifest.autoload space) ∧
          (written, first) ∈ spellings manifest.autoloadDev space) ∧
      ∀ other, other ∈ spellings manifest.autoload space ∨
        other ∈ spellings manifest.autoloadDev space → ¬written < other.1 := by
  obtain ⟨written, hmem, hspace, hgreatest⟩ :=
    Autoload.exists_greatest manifest.sorted_directories h
  have hlookup := manifest.sorted_directories.lookup_eq_some hmem
  rw [Manifest.lookup_directories] at hlookup
  obtain ⟨first, hfirst, rfl⟩ := Option.map_eq_some_iff.1 hlookup
  refine ⟨written, first, rfl, ?_, fun other hother => ?_⟩
  · rcases Option.or_eq_some_iff.1 hfirst with hfirst | ⟨hnone, hfirst⟩
    · exact .inl (mem_spellings_iff.2 ⟨hspace, Manifest.mem_of_first? hfirst⟩)
    · refine .inr ⟨fun other hother => ?_,
        mem_spellings_iff.2 ⟨hspace, Manifest.mem_of_first? hfirst⟩⟩
      obtain ⟨-, more, hother⟩ := mem_spellings_iff.1 hother
      have hsome := Manifest.isSome_first? hother
      rw [hnone] at hsome
      cases hsome
  · obtain ⟨hother, found, hfound⟩ := exists_mem_directories hother
    exact hgreatest (other.1, found) hfound hother

/-- **The settings come first, and of the manifest the greatest spelling.**  The project has a
manifest, or none (`hdeclared`). A normalized namespace that the settings spell is bound to a
directory of theirs. Otherwise it is bound by `autoload`, if that has a spelling of it that no
spelling of `autoload-dev` exceeds; and by `autoload-dev`, if that has a spelling that exceeds all
of `autoload`, so also if `autoload` has none. What neither of them spells is not bound. -/
theorem loadAutoload_precedence (hdeclared : Declared project s manifest) (settings : Settings) :
    ∃ autoload, (loadAutoload project settings : Action (StateM σ) Autoload).run.run s =
        (.ok autoload, s) ∧ ∀ space,
      ((∃ entry ∈ settings.spaces, normalize entry.1 = space) →
        ∃ entry ∈ settings.spaces, normalize entry.1 = space ∧
          autoload.find? space = some (directory project entry.2)) ∧
      ((∀ entry ∈ settings.spaces, normalize entry.1 ≠ space) →
        ((∃ entry ∈ spellings manifest.autoload space,
            ∀ other ∈ spellings manifest.autoloadDev space, ¬entry.1 < other.1) →
          ∃ entry ∈ spellings manifest.autoload space, autoload.find? space =
            some (directory project (Path.dropTrailingSlashes entry.2))) ∧
        ((∃ entry ∈ spellings manifest.autoloadDev space,
            ∀ other ∈ spellings manifest.autoload space, other.1 < entry.1) →
          ∃ entry ∈ spellings manifest.autoloadDev space, autoload.find? space =
            some (directory project (Path.dropTrailingSlashes entry.2))) ∧
        (spellings manifest.autoload space = [] → spellings manifest.autoloadDev space = [] →
          autoload.find? space = none)) := by
  refine ⟨_, run_loadAutoload hdeclared settings, fun space => ⟨fun hset => ?_, fun hunset => ?_⟩⟩
  · obtain ⟨found, hfound⟩ :=
      Option.isSome_iff_exists.1 (Autoload.isSome_lastBound?_iff.2 hset)
    obtain ⟨written, hmem, hspace⟩ := Autoload.mem_of_lastBound? hfound
    refine ⟨_, hmem, hspace, ?_⟩
    rw [find?_bindings, hfound]
    rfl
  · rw [find?_bindings, Autoload.lastBound?_eq_none hunset, Option.none_or]
    refine ⟨?_, ?_, fun hnone hnoneDev => ?_⟩
    · rintro ⟨entry, hentry, hlast⟩
      obtain ⟨found, hfound⟩ := exists_lastBound?_directories (.inl hentry)
      obtain ⟨written, first, rfl, hfirst | ⟨hnone, hfirst⟩, hgreatest⟩ :=
        exists_spelling hfound
      · exact ⟨_, hfirst, by rw [hfound]; rfl⟩
      · -- a spelling of the second place that is greater than that of the first
        have hlt : entry.1 < written :=
          Text.lt_of_not_lt (hgreatest _ (.inl hentry)) fun heq =>
            hnone entry.2 (heq ▸ show (entry.1, entry.2) ∈ _ from hentry)
        exact absurd hlt (hlast _ hfirst)
    · rintro ⟨entry, hentry, hexceeds⟩
      obtain ⟨found, hfound⟩ := exists_lastBound?_directories (.inr hentry)
      obtain ⟨written, first, rfl, hfirst | ⟨-, hfirst⟩, hgreatest⟩ := exists_spelling hfound
      · exact absurd (hexceeds _ hfirst) (hgreatest _ (.inr hentry))
      · exact ⟨_, hfirst, by rw [hfound]; rfl⟩
    · cases hfound : lastBound? manifest.directories space with
      | none => rfl
      | some found =>
        obtain ⟨written, first, -, hfirst, -⟩ := exists_spelling hfound
        rw [hnone, hnoneDev] at hfirst
        rcases hfirst with hfirst | ⟨-, hfirst⟩ <;> cases hfirst

/-- A list without directories leaves its namespace to the second place, and the settings have a
namespace of their own. -/
theorem loadAutoload_precedence_at_lists :
    let text := "\x7b\"autoload\": \x7b\"psr-4\":".toList ++
      "\x7b\"App\": [\"lib/\", \"x\"], \"Own\\\\\": []\x7d\x7d, \"autoload-dev\":".toList ++
      "\x7b\"psr-4\": \x7b\"App\": \"y\", \"Own\\\\\": \"tests\"\x7d\x7d\x7d".toList
    let tree : FileTree := ⟨[([['p']], .directory), ([['p'], Manifest.fileName], .file text)], []⟩
    let manifest : Manifest :=
      ⟨[("App".toList, ["lib/".toList, "x".toList]), ("Own\\".toList, [])],
        [("App".toList, ["y".toList]), ("Own\\".toList, ["tests".toList])]⟩
    let settings : Settings :=
      { Settings.default with spaces := [("\\Set".toList, "./set".toList)] }
    Declared ⟨"/p".toList⟩ tree manifest ∧
      ∃ autoload, ((loadAutoload ⟨"/p".toList⟩ settings :
          Action (StateM FileTree) Autoload).run.run tree).1 = .ok autoload ∧
        autoload.find? "Set\\".toList = some "/p/set".toList ∧
        autoload.find? "App\\".toList = some "/p/lib".toList ∧
        autoload.find? "Own\\".toList = some "/p/tests".toList ∧
        autoload.find? "No\\".toList = none := by
  intro text tree manifest settings
  have hdeclared : Declared ⟨"/p".toList⟩ tree manifest :=
    .of_nodeAt? "/p/composer.json".toList text (Script.eq_ok_of_toOption (by decide +kernel))
      (by decide +kernel) (Script.eq_ok_of_toOption (by decide +kernel))
  obtain ⟨autoload, hrun, hbound⟩ := loadAutoload_precedence hdeclared settings
  have hunset : ∀ space ∈ ["App\\".toList, "Own\\".toList, "No\\".toList],
      ∀ entry ∈ settings.spaces, normalize entry.1 ≠ space := by decide +kernel
  have hmanifest := fun space hspace => (hbound space).2 (hunset space hspace)
  obtain ⟨set, hset, -, hfindSet⟩ :=
    (hbound "Set\\".toList).1 ⟨_, List.mem_singleton_self _, by decide +kernel⟩
  obtain ⟨app, happ, hfindApp⟩ :=
    (hmanifest "App\\".toList (by decide +kernel)).1 (by decide +kernel)
  obtain ⟨own, hown, hfindOwn⟩ :=
    (hmanifest "Own\\".toList (by decide +kernel)).2.1 (by decide +kernel)
  have hno := (hmanifest "No\\".toList (by decide +kernel)).2.2 (by decide +kernel)
    (by decide +kernel)
  have happDirectory : ∀ entry ∈ spellings manifest.autoload "App\\".toList,
      directory ⟨"/p".toList⟩ (Path.dropTrailingSlashes entry.2) = "/p/lib".toList := by
    decide +kernel
  have hownDirectory : ∀ entry ∈ spellings manifest.autoloadDev "Own\\".toList,
      directory ⟨"/p".toList⟩ (Path.dropTrailingSlashes entry.2) = "/p/tests".toList := by
    decide +kernel
  have hsetDirectory : ∀ entry ∈ settings.spaces,
      directory ⟨"/p".toList⟩ entry.2 = "/p/set".toList := by decide +kernel
  exact ⟨hdeclared, autoload, congrArg Prod.fst hrun,
    hfindSet.trans (congrArg some (hsetDirectory _ hset)),
    hfindApp.trans (congrArg some (happDirectory _ happ)),
    hfindOwn.trans (congrArg some (hownDirectory _ hown)),
    hno⟩

/-- A spelling of `autoload-dev` with a backslash in front takes the place of the directory that
`autoload` gives to the same namespace. -/
theorem dev_takes_namespace :
    let text := "\x7b\"autoload\": \x7b\"psr-4\": \x7b\"App\\\\\": \"src\"\x7d\x7d,".toList ++
      "\"autoload-dev\": \x7b\"psr-4\": \x7b\"\\\\App\\\\\": \"tests\"\x7d\x7d\x7d".toList
    let tree : FileTree := ⟨[([['p']], .directory), ([['p'], Manifest.fileName], .file text)], []⟩
    let manifest : Manifest :=
      ⟨[("App\\".toList, ["src".toList])], [("\\App\\".toList, ["tests".toList])]⟩
    Manifest.parse text = .ok manifest ∧
      spellings manifest.autoload "App\\".toList = [("App\\".toList, "src".toList)] ∧
      ∃ autoload, ((loadAutoload ⟨"/p".toList⟩ .default :
          Action (StateM FileTree) Autoload).run.run tree).1 = .ok autoload ∧
        autoload.find? "App\\".toList = some "/p/tests".toList ∧
        directory ⟨"/p".toList⟩ "src".toList ≠ "/p/tests".toList := by
  intro text tree manifest
  exact ⟨Script.eq_ok_of_toOption (by decide +kernel), by decide +kernel,
    ⟨[⟨"App\\".toList, "/p/tests".toList⟩]⟩, Script.eq_ok_of_toOption (by decide +kernel),
    by decide +kernel, by decide +kernel⟩

end Context
end Scaffold
