/-
# The class of a new module is found

A module is created with a line for the manifest that binds its namespace to its source directory.
Once the manifest says so, the class of the configuration provider is looked up at the path of the
file that was written, up to slashes and single dots (`provider_found`).
-/

import Scaffold.Proofs.Project.Alike
import Scaffold.Proofs.Project.Bound
import Scaffold.Proofs.Project.Inside
import Scaffold.Proofs.Project.ModuleFiles

namespace Scaffold

open Registration (run_bind run_lift run_ofExcept)

/-! ### Names -/

/-- Two identifiers with a separator are the name of a class, if there is no white space to drop. -/
theorem ClassName.parse_qualified {space short : Text} (hspace : isIdentifier space = true)
    (hshort : isIdentifier short = true) (hhead : ¬space.head?.any isBlank = true)
    (hlast : ¬short.getLast?.any isBlank = true) :
    ClassName.parse (space ++ '\\' :: short) = .ok ⟨space ++ '\\' :: short⟩ := by
  have hfront : ∀ p : Char → Bool, ¬space.head?.any p = true →
      (space ++ '\\' :: short).dropWhile p = space ++ '\\' :: short := by
    intro p hp
    cases space with
    | nil => cases hspace
    | cons c space => exact List.dropWhile_cons_of_neg hp
  have hback : (space ++ '\\' :: short).rdropWhile isBlank = space ++ '\\' :: short := by
    rw [List.rdropWhile_eq_self_iff]
    intro hne
    have hgetLast : (space ++ '\\' :: short).getLast hne ∈ short.getLast? := by
      cases short with
      | nil => cases hshort
      | cons c short =>
        rw [List.getLast_append_of_ne_nil _ (List.cons_ne_nil _ _),
          List.getLast_cons (List.cons_ne_nil c short)]
        exact List.getLast?_eq_some_getLast _
    rw [Option.mem_def] at hgetLast
    rwa [hgetLast] at hlast
  have htrim : Text.trim (space ++ '\\' :: short) = space ++ '\\' :: short := by
    rw [Text.trim, Text.trimBoth, hfront _ hhead]
    exact hback
  have hsplit : (space ++ '\\' :: short).splitOn '\\' = [space, short] := by
    rw [List.splitOn_append_cons_self,
      List.splitOn_eq_singleton (not_mem_of_isIdentifier hspace rfl),
      List.splitOn_eq_singleton (not_mem_of_isIdentifier hshort rfl)]
    rfl
  have hslash : ¬space.head?.any (· == '\\') = true := by
    cases space with
    | nil => cases hspace
    | cons c space =>
      have hc := not_mem_of_isIdentifier hspace (c := '\\') rfl
      rw [List.mem_cons, not_or] at hc
      exact fun heq => hc.1 (beq_iff_eq.1 heq).symm
  unfold ClassName.parse
  dsimp only
  rw [htrim, hfront _ hslash, hsplit, if_pos]
  simp [hspace, hshort]

namespace Autoload

/-- A namespace without backslashes is bound with one at its end. -/
theorem normalize_concat {space : Text} (hne : space ≠ []) (h : '\\' ∉ space) :
    normalize (space ++ ['\\']) = space ++ ['\\'] := by
  have hfront : (space ++ ['\\']).dropWhile (· == '\\') = space ++ ['\\'] := by
    cases space with
    | nil => exact absurd rfl hne
    | cons c space =>
      rw [List.mem_cons, not_or] at h
      exact List.dropWhile_cons_of_neg fun heq => h.1 (beq_iff_eq.1 heq).symm
  have hback : (space ++ ['\\']).rdropWhile (· == '\\') = space := by
    rw [List.rdropWhile_concat_pos _ _ _ rfl, List.rdropWhile_eq_self_iff]
    intro hne hlast
    exact h ((beq_iff_eq.1 hlast) ▸ List.getLast_mem hne)
  have htrim : Text.trimBoth (· == '\\') (space ++ ['\\']) = space := by
    rw [Text.trimBoth, hfront]
    exact hback
  unfold normalize
  rw [htrim]
  cases space with
  | nil => exact absurd rfl hne
  | cons c space => rfl

/-- A normal namespace is empty or ends with a separator. -/
theorem normalize_eq_nil_or_concat (written : Text) :
    normalize written = [] ∨ ∃ space, normalize written = space ++ ['\\'] := by
  unfold normalize
  split
  · exact .inl rfl
  · exact .inr ⟨_, rfl⟩

/-- The only namespaces that cover a class are the empty one and that of the class. -/
theorem space_of_covers {mapping : Mapping} {written space short : Text}
    (hmapping : mapping.space = normalize written) (hspace : '\\' ∉ space) (hshort : '\\' ∉ short)
    (h : Mapping.covers mapping ⟨space ++ '\\' :: short⟩ = true) :
    mapping.space = [] ∨ mapping.space = space ++ ['\\'] := by
  rcases normalize_eq_nil_or_concat written with hnil | ⟨found, hfound⟩
  · exact .inl (hmapping.trans hnil)
  · right
    rw [Mapping.covers, hmapping, hfound, List.isPrefixOf_iff_prefix] at h
    obtain ⟨rest, hrest⟩ := h
    rw [List.append_assoc] at hrest
    rw [hmapping, hfound, ((List.append_cons_inj_of_notMem hspace hshort).1 hrest.symm).1]

/-- A class just inside a namespace lies in the directory that the namespace is bound to. -/
theorem resolve_qualified {autoload : Autoload} {space short : Text} {directory : Path}
    (hnormal : ∀ mapping ∈ autoload.mappings, ∃ written, mapping.space = normalize written)
    (hmem : ⟨space ++ ['\\'], directory⟩ ∈ autoload.mappings)
    (hunique : ∀ mapping ∈ autoload.mappings, mapping.space = space ++ ['\\'] →
      mapping.directory = directory)
    (hspace : '\\' ∉ space) (hshort : '\\' ∉ short) :
    autoload.resolve ⟨space ++ '\\' :: short⟩ =
      .ok (Path.withExtension "php".toList (Path.join directory short)) := by
  have hcovering : autoload.covering? ⟨space ++ '\\' :: short⟩ =
      some ⟨space ++ ['\\'], directory⟩ := by
    refine covering?_eq_some hmem ?_ fun other hother hcovers => ?_
    · exact List.isPrefixOf_iff_prefix.2 ⟨short, List.append_assoc _ _ _⟩
    · obtain ⟨written, hwritten⟩ := hnormal other hother
      rcases space_of_covers hwritten hspace hshort hcovers with hnil | heq
      · right
        rw [hnil, List.length_append]
        exact Nat.succ_pos _
      · left
        have hdirectory := hunique other hother heq
        obtain ⟨found, other⟩ := other
        exact congrArg₂ Mapping.mk heq hdirectory
  have hbelow : (space ++ '\\' :: short).drop (space ++ ['\\']).length = short := by
    rw [show space ++ '\\' :: short = (space ++ ['\\']) ++ short by simp, List.drop_left]
  rw [resolve, hcovering]
  dsimp only
  rw [Mapping.file, hbelow, List.splitOn_eq_singleton hshort]
  rfl

end Autoload

/-! ### Paths -/

namespace Path

/-- The segments before those of a relative path that is joined. -/
theorem exists_segments_before (base : Path) :
    ∃ before, ∀ other, isAbsolute other = false →
      segments (join base other) = before ++ segments other := by
  rcases List.eq_nil_or_concat base with rfl | ⟨above, c, rfl⟩
  · exact ⟨[], fun other h => by rw [join, if_neg (by rw [h]; exact Bool.false_ne_true)]; rfl⟩
  · rw [List.concat_eq_append]
    by_cases hc : c = '/'
    · subst hc
      refine ⟨segments above, fun other h => ?_⟩
      rw [join, if_neg (by rw [h]; exact Bool.false_ne_true), if_pos (by simp), List.append_assoc]
      exact segments_append_slash above other
    · refine ⟨segments (above ++ [c]), fun other h => ?_⟩
      rw [join_eq_append h (List.append_ne_nil_of_right_ne_nil _ (List.cons_ne_nil _ _))
        (by simpa using hc)]
      exact segments_append_slash _ other

/-- A name without a dot is its own stem. -/
theorem stem_of_not_mem {name : Text} (h : '.' ∉ name) : stem name = name := by
  have hnone : Text.beforeLast? '.' name = none := by
    have hall : name.reverse.dropWhile (· != '.') = [] := by
      rw [List.dropWhile_eq_nil_iff]
      intro c hc
      exact bne_iff_ne.2 fun hdot => h (hdot ▸ List.mem_reverse.1 hc)
    rw [Text.beforeLast?, hall]
  rw [stem, hnone]

/-- A name without a slash is no absolute path. -/
theorem isAbsolute_of_not_mem {name : Text} (h : '/' ∉ name) : isAbsolute name = false := by
  cases name with
  | nil => rfl
  | cons c name =>
    rw [isAbsolute_cons, beq_eq_false_iff_ne]
    exact fun hc => h (hc ▸ List.mem_cons_self)

/-- A name that is joined is the last segment. -/
theorem exists_segments_join_name (base : Path) :
    ∃ before, ∀ name : Text, '/' ∉ name → segments (join base name) = before ++ [name] := by
  obtain ⟨before, hbefore⟩ := exists_segments_before base
  refine ⟨before, fun name hname => ?_⟩
  rw [hbefore name (isAbsolute_of_not_mem hname), segments, List.splitOn_eq_singleton hname]

/-- A last segment that leads down is the last name. -/
theorem lastName?_of_segments {path : Path} {before : List Text} {name : Text}
    (h : segments path = before ++ [name]) (hidle : ¬isIdle name = true)
    (hdots : name ≠ ['.', '.']) :
    lastName? path = some (['/'].intercalate (before ++ [[]]), name) := by
  unfold lastName?
  rw [h, List.reverse_append, List.reverse_singleton, List.singleton_append,
    List.dropWhile_cons_of_neg (by simpa using hidle)]
  dsimp only
  rw [if_neg hdots, List.reverse_reverse]

/-- A name without a dot is not idle. -/
theorem not_isIdle_of_not_mem {name : Text} (hdot : '.' ∉ name) (hne : name ≠ []) :
    ¬isIdle name = true := by
  rw [isIdle, Bool.or_eq_true, not_or]
  refine ⟨by simpa using hne, fun h => hdot ?_⟩
  rw [beq_iff_eq.1 h]
  exact List.mem_cons_self

/-- An extension is added to a name without one. -/
theorem withExtension_join {extension name : Text} (base : Path)
    (hslash : '/' ∉ name ++ '.' :: extension) (hdot : '.' ∉ name) (hne : name ≠ []) :
    withExtension extension (join base name) = join base (name ++ '.' :: extension) := by
  obtain ⟨before, hsegments⟩ := exists_segments_join_name base
  have hname : '/' ∉ name := fun h => hslash (List.mem_append_left _ h)
  have hlast := lastName?_of_segments (hsegments name hname) (not_isIdle_of_not_mem hdot hne)
    (fun hdots => hdot (hdots ▸ List.mem_cons_self))
  have hjoin : ['/'].intercalate (before ++ [name ++ '.' :: extension]) =
      join base (name ++ '.' :: extension) := by
    rw [← hsegments _ hslash, segments, List.intercalate_splitOn]
  rw [withExtension, hlast]
  dsimp only
  rw [stem_of_not_mem hdot, ← hjoin, List.append_assoc, intercalate_concat_append]
  rfl

end Path

namespace Context

variable {project : Project} {tree : FileTree}

/-- A file that can be read is there. -/
theorem isPresent_of_read {path : Path} {text : Text}
    (h : (project.read path : Action (StateM FileTree) Text).run.run tree = (.ok text, tree)) :
    (project.isPresent path : StateM FileTree Bool).run tree = (true, tree) := by
  obtain ⟨full, hconfine, hnode⟩ := Project.nodeAt?_of_run_read h
  rw [Project.run_isPresent, hconfine]
  dsimp only
  rw [hnode]
  rfl

/-- A class just inside a namespace of the manifest lies in the directory of the namespace. -/
theorem resolve_of_sole (project : Project) {spaces : Table Path} {space short : Text}
    {directory : Path} (hspace : isIdentifier space = true) (hshort : isIdentifier short = true)
    (hsole : Autoload.Sole (space ++ ['\\'], directory) spaces) :
    (addSpaces project .empty spaces).resolve ⟨space ++ '\\' :: short⟩ =
      .ok (Path.join (Context.directory project directory) (short ++ ".php".toList)) := by
  have hslash : ∀ {name : Text}, isIdentifier name = true → '\\' ∉ name := fun h =>
    not_mem_of_isIdentifier h rfl
  have hne : ∀ {name : Text}, isIdentifier name = true → name ≠ [] := by
    rintro name h rfl
    cases h
  obtain ⟨hmem, hunique⟩ := addSpaces_bound project hsole
  rw [Autoload.normalize_concat (hne hspace) (hslash hspace)] at hmem hunique
  rw [Autoload.resolve_qualified (fun mapping hmapping => ?_) hmem hunique (hslash hspace)
    (hslash hshort), Path.withExtension_join _ ?_ (not_mem_of_isIdentifier hshort rfl) (hne hshort)]
  · rfl
  · intro hmem
    rcases List.mem_append.1 hmem with hmem | hmem
    · exact not_mem_of_isIdentifier hshort rfl hmem
    · exact absurd hmem (by decide)
  · rcases mem_addSpaces hmapping with hempty | ⟨entry, -, rfl⟩
    · cases hempty
    · exact ⟨entry.1, rfl⟩

/-- A project without settings has the namespaces of its manifest. -/
theorem run_load {text : Text} {manifest : Manifest}
    (hsettings : (project.isPresent Settings.fileName : StateM FileTree Bool).run tree =
      (false, tree))
    (hread : (project.read Manifest.fileName : Action (StateM FileTree) Text).run.run tree =
      (.ok text, tree))
    (hparse : Manifest.parse text = .ok manifest) :
    (load project : Action (StateM FileTree) Context).run.run tree =
      (.ok ⟨project, .default, addSpaces project .empty manifest.directories⟩, tree) := by
  have hdefault : (loadSettings project : Action (StateM FileTree) Settings).run.run tree =
      (.ok .default, tree) := run_bind (run_lift hsettings)
  have hdeclared : (loadManifestSpaces project : Action (StateM FileTree) (Table Path)).run.run
      tree = (.ok manifest.directories, tree) := by
    unfold loadManifestSpaces
    rw [run_bind (run_lift (isPresent_of_read hread)), if_pos rfl, run_bind hread, hparse]
    rfl
  exact (run_bind hdefault).trans (run_bind ((run_bind hdeclared).trans rfl))

end Context

namespace CreatedModule

variable {project : Project} {request : ModuleRequest}

/-- Where an identifier follows a directory, a `./` with a slash behind it is in the directory. -/
theorem prefix_of_prefix_join {directory name rest : Path} (hname : isIdentifier name = true)
    (h : ['.', '/', '/'] <+: Path.join directory name ++ rest) : ['.', '/', '/'] <+: directory := by
  obtain ⟨c, more, rfl⟩ : ∃ c more, name = c :: more := by
    cases name with
    | nil => cases hname
    | cons c more => exact ⟨c, more, rfl⟩
  have hslash : c ≠ '/' := fun hc =>
    not_mem_of_isIdentifier hname (c := '/') rfl (hc ▸ List.mem_cons_self)
  have hdot : c ≠ '.' := fun hc =>
    not_mem_of_isIdentifier hname (c := '.') rfl (hc ▸ List.mem_cons_self)
  obtain ⟨between, hbetween, hjoin⟩ : ∃ between, (between = [] ∨ between = ['/'] ∧
      directory ≠ [] ∧ directory.getLast? ≠ some '/') ∧
      Path.join directory (c :: more) = directory ++ (between ++ c :: more) := by
    unfold Path.join
    rw [if_neg (by simpa using hslash)]
    split
    · exact ⟨[], .inl rfl, rfl⟩
    · rename_i hend
      exact ⟨['/'], .inr ⟨rfl, by simpa using hend⟩, rfl⟩
  rw [hjoin, List.append_assoc] at h
  match directory with
  | a :: b :: d :: directory => simpa using h
  | [] =>
    rcases hbetween with rfl | ⟨rfl, hne, -⟩
    · simp [Ne.symm hdot] at h
    · exact absurd rfl hne
  | [a] =>
    rcases hbetween with rfl | ⟨rfl, -, -⟩
    · simp [Ne.symm hslash] at h
    · simp [Ne.symm hslash] at h
  | [a, b] =>
    rcases hbetween with rfl | ⟨rfl, -, hlast⟩
    · simp [Ne.symm hslash] at h
    · have hb : b ≠ '/' := by simpa using hlast
      simp [Ne.symm hb] at h

/-- The directory in the line for the manifest starts with a `./` and a slash only if the path of
the modules starts with two `./` and a slash. -/
theorem prefix_modulesPath (hname : isIdentifier request.name = true) {rest : Path}
    (h : ['.', '/', '/'] <+: relativeRoot request ++ rest) :
    "././/".toList <+: request.modulesPath := by
  have hdirectory := prefix_of_prefix_join hname h
  unfold Path.dropDotSlash Text.after? at hdirectory
  split at hdirectory
  · rename_i hprefix
    obtain ⟨more, hmore⟩ := List.isPrefixOf_iff_prefix.1 hprefix
    rw [← hmore] at hdirectory ⊢
    obtain ⟨tail, htail⟩ := hdirectory
    have htail : ['.', '/', '/'] ++ tail = more := htail
    exact ⟨tail, by rw [← htail]; rfl⟩
  · rename_i hprefix
    obtain ⟨tail, htail⟩ := hdirectory
    have htail : ['.', '/', '/'] ++ tail = request.modulesPath := htail
    exact absurd (List.isPrefixOf_iff_prefix.2 ⟨'/' :: tail, htail⟩) hprefix

/-- **The directory in the line for the manifest is the source directory.** -/
theorem alike_autoloadDirectory {layout : ModuleLayout} (hplan : plan project request = .ok layout)
    (hslashes : ¬"././/".toList <+: request.modulesPath) :
    Path.Alike
      (Context.directory project
        (Path.dropTrailingSlashes (Path.join (relativeRoot request) layout.sourcePath ++ ['/'])))
      layout.sourceDirectory := by
  obtain ⟨hname, rfl⟩ := plan_eq_ok_iff.1 hplan
  obtain ⟨hne, hlast⟩ := ne_nil_of_suffix hname (Path.suffix_join _ request.name)
  change relativeRoot request ≠ [] at hne
  let source := Path.join (relativeRoot request) "src".toList
  have hsource : source = relativeRoot request ++ "/src".toList :=
    Path.join_eq_append rfl hne hlast
  have hcomponents : Path.components (source ++ ['/']) ≠ [] := by
    have hsrc : Path.components "src".toList = ["src".toList] := by decide +kernel
    rw [Path.components_append_slash, Path.components_join rfl, hsrc]
    simp
  have htrailing := Path.alike_dropTrailingSlashes hcomponents
  have hdots : ¬['.', '/', '/'] <+: Path.dropTrailingSlashes (source ++ ['/']) := by
    intro h
    have hprefix : Path.dropTrailingSlashes (source ++ ['/']) <+: source ++ ['/'] :=
      List.rdropWhile_prefix _ _
    rw [hsource, List.append_assoc] at h hprefix
    exact hslashes (prefix_modulesPath hname (h.trans hprefix))
  have hsource : source ≠ [] := by
    rw [hsource]
    exact List.append_ne_nil_of_left_ne_nil hne _
  refine (Context.alike_directory project (by rwa [htrailing.components_eq]) hdots).trans ?_
  refine (htrailing.join project.root).trans ?_
  exact ((Path.alike_append_slash hsource).join project.root).trans
    (Path.alike_join_assoc project.root (relativeRoot request) rfl)

/-- The file of the configuration provider stands where its path leads. -/
theorem Outcome.node?_configProvider {created : CreatedModule} {tree tree' : FileTree}
    (hroot : Path.isAbsolute project.root = true)
    (h : Outcome project request tree (.ok created) tree') :
    tree'.node? (Path.walk [] created.configProvider) =
      some (.file (providerSource created.layout.name)) := by
  cases h with
  | @created layout _ _ plan absent provider keeper =>
    obtain ⟨hprovider, hkeeper⟩ := plan_files plan
    have habsolute : Path.isAbsolute layout.rootPath = true := by
      rw [(plan_eq_ok_iff.1 plan).2]
      exact Project.isAbsolute_resolve hroot _
    have htarget : ∀ rest : Path, project.target (layout.rootPath ++ '/' :: rest) =
        Path.walk [] (layout.rootPath ++ '/' :: rest) := fun rest => by
      rw [Project.target, if_pos (Path.isAbsolute_append habsolute _)]
    have hfile := (FileTree.fallible.wrote provider).file?_eq hroot
    have hkept := (FileTree.fallible.wrote keeper).file?_eq hroot
    rw [hprovider, htarget] at hfile
    rw [hkeeper, htarget] at hkept
    have hne : Path.walk [] (layout.rootPath ++ '/' :: "src/ConfigProvider.php".toList) ≠
        Path.walk [] (layout.rootPath ++ '/' :: "templates/.gitkeep".toList) := by
      rw [Path.walk_append_slash, Path.walk_append_slash, walk_provider, walk_keeper]
      exact fun heq => absurd (List.append_cancel_left heq) (by decide +kernel)
    dsimp only
    rw [hprovider]
    refine FileTree.node?_of_file? ?_
    rw [hkept, Function.update_of_ne hne, hfile, Function.update_self]

/-- **The class of the configuration provider is found** in the file that was written. -/
theorem provider_found {context : Context}
    (hroot : Path.isAbsolute context.project.root = true) {request : ModuleRequest}
    {tree tree₁ : FileTree} {created : CreatedModule}
    (hcreate : (create context request : Action (StateM FileTree) CreatedModule).run.run tree =
      (.ok created, tree₁))
    (hslashes : ¬"././/".toList <+: request.modulesPath)
    (hblank : ¬request.name.head?.any isBlank = true) {tree₂ : FileTree}
    (hsettings : (context.project.isPresent Settings.fileName : StateM FileTree Bool).run tree₂ =
      (false, tree₂))
    {text : Text}
    (hread : (context.project.read Manifest.fileName :
      Action (StateM FileTree) Text).run.run tree₂ = (.ok text, tree₂))
    {manifest : Manifest} (hparse : Manifest.parse text = .ok manifest)
    (hautoload : manifest.autoload =
      [(created.layout.name ++ ['\\'], [created.autoloadDirectory])])
    (hdev : ∀ entry ∈ manifest.autoloadDev,
      Autoload.normalize entry.1 = created.layout.name ++ ['\\'] →
        entry.1 = created.layout.name ++ ['\\']) :
    ∃ name context₂ path,
      ClassName.parse created.providerClass = .ok name ∧
      (Context.load context.project : Action (StateM FileTree) Context).run.run tree₂ =
        (.ok context₂, tree₂) ∧
      context₂.autoload.resolve name = .ok path ∧
      Path.Alike path created.configProvider ∧
      tree₁.node? (Path.walk [] path) = some (.file (providerSource created.layout.name)) := by
  have houtcome := Registration.of_run (run_create context request fun path =>
    ⟨_, Project.run_isPresent context.project path tree⟩) hcreate
  have hnode := houtcome.node?_configProvider hroot
  cases houtcome with
  | @created layout _ _ plan absent provider keeper =>
    obtain ⟨hname, hlayout⟩ := plan_eq_ok_iff.1 plan
    have hspace : layout.name = request.name := by rw [hlayout]
    have hshort : isIdentifier "ConfigProvider".toList = true := by decide +kernel
    rw [← hspace] at hname hblank
    have hnormal : Autoload.normalize (layout.name ++ ['\\']) = layout.name ++ ['\\'] := by
      refine Autoload.normalize_concat ?_ (not_mem_of_isIdentifier hname rfl)
      intro hnil
      rw [hnil] at hname
      cases hname
    have hsole := Manifest.sole_directories hautoload (by rwa [hnormal])
    have hfile : Path.isAbsolute "ConfigProvider.php".toList = false := by decide +kernel
    have halike := (alike_autoloadDirectory plan hslashes).join_of_relative hfile
    have hclass : "\\ConfigProvider".toList = '\\' :: "ConfigProvider".toList := by decide +kernel
    have hphp : "ConfigProvider".toList ++ ".php".toList = "ConfigProvider.php".toList := by
      decide +kernel
    have hparsed := ClassName.parse_qualified hname hshort hblank (by decide +kernel)
    have hresolved := Context.resolve_of_sole context.project hname hshort hsole
    rw [← hclass] at hparsed hresolved
    rw [hphp] at hresolved
    refine ⟨_, _, _, hparsed, Context.run_load hsettings hread hparse, hresolved, halike, ?_⟩
    rw [halike.walk_eq]
    exact hnode

/-- A module in a directory that is written with a `./` in front and slashes too many. -/
theorem provider_found_at_slashes :
    let context : Context := ⟨⟨"/p".toList⟩, .default, .empty⟩
    let run := (create context ⟨"M".toList, "./a//b/".toList⟩ :
      Action (StateM FileTree) CreatedModule).run.run ⟨[([['p']], .directory)], []⟩
    let created : CreatedModule := ⟨⟨"M".toList, "/p/a//b/M".toList, "src".toList⟩,
      "/p/a//b/M/src/ConfigProvider.php".toList, "a//b/M/src/".toList⟩
    let text := "\x7b\"autoload\": \x7b\"psr-4\": \x7b".toList ++ created.autoloadEntry ++
      "\x7d\x7d\x7d".toList
    run.1 = .ok created ∧ ∃ name context₂ path,
      ClassName.parse created.providerClass = .ok name ∧
      ((Context.load context.project : Action (StateM FileTree) Context).run.run
        (run.2.setNode [['p'], Manifest.fileName] (.file text))).1 = .ok context₂ ∧
      context₂.autoload.resolve name = .ok path ∧
      Path.Alike path "/p/./a/b/M/src/ConfigProvider.php".toList := by
  intro context run created text
  let tree₂ := run.2.setNode [['p'], Manifest.fileName] (.file text)
  let manifest : Manifest := ⟨[("M\\".toList, ["a//b/M/src/".toList])], []⟩
  have hcreated : run.1 = .ok created := Script.eq_ok_of_toOption (by decide +kernel)
  have hsettings : (context.project.isPresent Settings.fileName : StateM FileTree Bool).run tree₂ =
      (false, tree₂) :=
    (Project.run_isPresent _ _ _).trans (Prod.ext (by decide +kernel) rfl)
  have hread : (context.project.read Manifest.fileName :
      Action (StateM FileTree) Text).run.run tree₂ = (.ok text, tree₂) :=
    (Project.run_read _ _ _).trans
      (Prod.ext (Script.eq_ok_of_toOption (by decide +kernel)) rfl)
  have hparse : Manifest.parse text = .ok manifest :=
    Script.eq_ok_of_toOption (by decide +kernel)
  have hautoload : manifest.autoload =
      [(created.layout.name ++ ['\\'], [created.autoloadDirectory])] := by decide +kernel
  have hroot : Path.isAbsolute context.project.root = true := by decide +kernel
  have hcreate : run = (.ok created, run.2) := hcreated ▸ (Prod.eta run).symm
  have hslashes : ¬"././/".toList <+: "./a//b/".toList := by decide +kernel
  have hblank : ¬"M".toList.head?.any isBlank = true := by decide +kernel
  have hsame : Path.Alike created.configProvider "/p/./a/b/M/src/ConfigProvider.php".toList := by
    decide +kernel
  have hdev : ∀ entry ∈ manifest.autoloadDev,
      Autoload.normalize entry.1 = created.layout.name ++ ['\\'] →
        entry.1 = created.layout.name ++ ['\\'] := fun _ h => absurd h List.not_mem_nil
  obtain ⟨name, context₂, path, hname, hload, hresolve, halike, -⟩ :=
    provider_found hroot hcreate hslashes hblank hsettings hread hparse hautoload hdev
  exact ⟨hcreated, name, context₂, path, hname, congrArg Prod.fst hload, hresolve,
    halike.trans hsame⟩

/-- With two `./` and a slash in front, the directory that the manifest names is at the top. -/
theorem provider_lost_at_slashes :
    let context : Context := ⟨⟨"/p".toList⟩, .default, .empty⟩
    let run := (create context ⟨"M".toList, "././/a".toList⟩ :
      Action (StateM FileTree) CreatedModule).run.run ⟨[([['p']], .directory)], []⟩
    let created : CreatedModule := ⟨⟨"M".toList, "/p/.//a/M".toList, "src".toList⟩,
      "/p/.//a/M/src/ConfigProvider.php".toList, ".//a/M/src/".toList⟩
    let text := "\x7b\"autoload\": \x7b\"psr-4\": \x7b".toList ++ created.autoloadEntry ++
      "\x7d\x7d\x7d".toList
    let path := "/a/M/src/ConfigProvider.php".toList
    run.1 = .ok created ∧
      Manifest.parse text = .ok ⟨[("M\\".toList, [created.autoloadDirectory])], []⟩ ∧
      (∃ context₂,
        ((Context.load context.project : Action (StateM FileTree) Context).run.run
          (run.2.setNode [['p'], Manifest.fileName] (.file text))).1 = .ok context₂ ∧
        context₂.autoload.resolve ⟨"M\\ConfigProvider".toList⟩ = .ok path) ∧
      ¬Path.Alike path created.configProvider := by
  intro context run created text path
  let bound : Context := ⟨context.project, .default, ⟨[⟨"M\\".toList, "/a/M/src".toList⟩]⟩⟩
  exact ⟨Script.eq_ok_of_toOption (by decide +kernel),
    Script.eq_ok_of_toOption (by decide +kernel),
    ⟨bound, Script.eq_ok_of_toOption (by decide +kernel),
      Script.eq_ok_of_toOption (by decide +kernel)⟩, by decide +kernel⟩

end CreatedModule
end Scaffold
