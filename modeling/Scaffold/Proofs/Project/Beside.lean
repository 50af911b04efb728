/-
# The factory beside its class

The name of a factory goes on where the name of its class ends, and a suffix holds no backslash. So
the same namespaces cover both (`covering?_withSuffix`), and below the directory of the namespace
only the last name differs (`file_eq_join`): the two files have one parent (`Path.parent?_join`).
Walked by its text, the path of a file has as many names below the directory as the namespace leaves
segments, so different classes of one namespace lie in different places (`walk_file_inj`). The
whole statement is `factoryPath_beside`.
-/

import Scaffold.Proofs.Project.Longest
import Scaffold.Proofs.Registration.Run

namespace Scaffold

/-! ### Paths that end in a name -/

namespace Path

variable {base : Path} {name other : Text}

/-- What is above a name that is joined does not depend on the name. -/
theorem parent?_join (hname : '/' ∉ name ∧ ¬isIdle name = true)
    (hother : '/' ∉ other ∧ ¬isIdle other = true) :
    parent? (join base name) = parent? (join base other) := by
  obtain ⟨before, hsegments⟩ := exists_segments_join_name base
  have hdropped : ∀ name : Text, '/' ∉ name ∧ ¬isIdle name = true →
      (segments (join base name)).reverse.dropWhile isIdle = name :: before.reverse := by
    rintro name ⟨hslash, hidle⟩
    rw [hsegments name hslash, List.reverse_append, List.reverse_singleton,
      List.singleton_append, List.dropWhile_cons_of_neg (by simpa using hidle)]
  have habsolute : ∀ name : Text, '/' ∉ name → isAbsolute (join base name) = isAbsolute base := by
    intro name hslash
    rw [isAbsolute_join_eq, isAbsolute_of_not_mem hslash, Bool.or_false]
  have hstart : ∀ name : Text, '/' ∉ name ∧ ¬isIdle name = true →
      startsAtDot (join base name) = (before.head? == some ['.']) := by
    rintro name ⟨hslash, hidle⟩
    rw [startsAtDot, hsegments name hslash]
    cases before with
    | nil =>
      rw [isIdle, Bool.or_eq_true, not_or] at hidle
      exact Bool.eq_false_iff.2 hidle.2
    | cons first before => rfl
  unfold parent?
  rw [hdropped name hname, habsolute name hname.1, hstart name hname, hdropped other hother,
    habsolute other hother.1, hstart other hother]

/-- There is something above a name that is joined. -/
theorem exists_parent?_join (base : Path) (hslash : '/' ∉ name) (hidle : ¬isIdle name = true) :
    ∃ above, parent? (join base name) = some above := by
  obtain ⟨before, hsegments⟩ := exists_segments_join_name base
  refine exists_parent?_eq_some fun hall => ?_
  rw [hsegments name hslash, List.all_append, Bool.and_eq_true, List.all_cons,
    Bool.and_eq_true] at hall
  exact hidle hall.2.1

/-- The last name of a path. -/
def fileName? (path : Path) : Option Text := (lastName? path).map Prod.snd

/-- The file name of a path that ends in a proper name is that name. -/
theorem fileName?_join (hslash : '/' ∉ name) (hidle : ¬isIdle name = true)
    (hdots : name ≠ ['.', '.']) : fileName? (join base name) = some name := by
  obtain ⟨before, hsegments⟩ := exists_segments_join_name base
  rw [fileName?, lastName?_of_segments (hsegments name hslash) hidle hdots]
  rfl

/-- A path of names is walked name by name. -/
theorem walk_foldl_join {names : List Text} (h : ∀ name ∈ names, '/' ∉ name) (place : List Text)
    (base : Path) :
    walk place (names.foldl join base) = names.foldl Location.step (walk place base) := by
  induction names generalizing base with
  | nil => rfl
  | cons name names ih =>
    obtain ⟨hname, hnames⟩ := List.forall_mem_cons.1 h
    have hstep : walk place (join base name) = Location.step (walk place base) name := by
      rw [walk_join, if_neg (by rw [isAbsolute_of_not_mem hname]; decide), walk, segments,
        List.splitOn_eq_singleton hname]
      rfl
    rw [List.foldl_cons, ih hnames, hstep, List.foldl_cons]

end Path

namespace Autoload

variable {autoload : Autoload} {mapping : Mapping} {name other : ClassName} {suffix : Text}
variable {bindings : List (Text × Path)}

/-! ### The namespaces that cover a factory -/

/-- What ends in a separator goes on into no suffix without one. -/
theorem prefix_append_iff {space text : Text} (hspace : space = [] ∨ ∃ c, space = c ++ ['\\'])
    (hsuffix : '\\' ∉ suffix) : space <+: text ++ suffix ↔ space <+: text := by
  refine ⟨fun h => ?_, fun h => h.trans (List.prefix_append text suffix)⟩
  rcases hspace with rfl | ⟨before, rfl⟩
  · exact List.nil_prefix
  · rcases List.prefix_or_prefix_of_prefix h (List.prefix_append text suffix) with hle | hle
    · exact hle
    · rcases List.prefix_concat_iff.1 hle with rfl | ⟨rest, rfl⟩
      · exact List.prefix_refl _
      · -- the separator would stand in the suffix
        rw [List.append_assoc, List.prefix_append_right_inj] at h
        exact absurd (h.subset (List.mem_append_right _ (List.mem_singleton_self _))) hsuffix

/-- **The same namespaces cover a class and its factory.** -/
theorem covering?_withSuffix
    (hnormal : ∀ mapping ∈ autoload.mappings, ∃ written, mapping.space = normalize written)
    (hsuffix : '\\' ∉ suffix) (name : ClassName) :
    autoload.covering? (name.withSuffix suffix) = autoload.covering? name := by
  have hcovers : autoload.mappings.filter (Mapping.covers · (name.withSuffix suffix)) =
      autoload.mappings.filter (Mapping.covers · name) := by
    refine List.filter_congr fun mapping hmapping => ?_
    obtain ⟨written, hspace⟩ := hnormal mapping hmapping
    rw [Bool.eq_iff_iff, covers_iff, covers_iff]
    exact prefix_append_iff (hspace ▸ normalize_eq_nil_or_concat written) hsuffix
  rw [covering?, covering?, hcovers]

/-- The namespaces of an autoload map that was built up are normal. -/
theorem normal_bindAll (bindings : List (Text × Path)) :
    ∀ mapping ∈ (bindAll bindings).mappings, ∃ written, mapping.space = normalize written := by
  intro mapping hmapping
  have hbound := (single_bindAll bindings).mem_iff.1 hmapping
  rw [find?_bindAll] at hbound
  obtain ⟨binding, -, hspace⟩ := isSome_lastBound?_iff.1 (Option.isSome_of_eq_some hbound)
  exact ⟨binding.1, hspace.symm⟩

/-! ### The file of a class below the directory -/

/-- The name of a file of a class. -/
theorem fileName_of_isIdentifier {last : Text} (h : isIdentifier last = true) :
    '/' ∉ last ++ ".php".toList ∧ ¬Path.isIdle (last ++ ".php".toList) = true ∧
      last ++ ".php".toList ≠ ['.', '.'] := by
  cases last with
  | nil => cases h
  | cons c last =>
    have hdot : c ≠ '.' := fun hc =>
      not_mem_of_isIdentifier h (c := '.') rfl (hc ▸ List.mem_cons_self)
    refine ⟨?_, ?_, fun heq => hdot (List.cons.inj heq).1⟩
    · rw [List.mem_append, not_or]
      exact ⟨not_mem_of_isIdentifier h rfl, by decide⟩
    · rw [Path.isIdle, Bool.or_eq_true, not_or]
      exact ⟨Bool.false_ne_true, fun heq => hdot (List.cons.inj (beq_iff_eq.1 heq)).1⟩

/-- How a class lies below the namespace of a mapping: the segments of its name that the namespace
leaves, all but the last one and that one. -/
structure Below (mapping : Mapping) (name : ClassName) (segments : List Text) (last : Text) :
    Prop where
  text_eq : name.text = mapping.space ++ ['\\'].intercalate (segments ++ [last])
  identifiers : ∀ segment ∈ segments ++ [last], isIdentifier segment = true

/-- A class lies below the namespace that covers it. -/
theorem exists_below (hname : name.WellFormed)
    (hcovering : (bindAll bindings).covering? name = some mapping) :
    ∃ segments last, Below mapping name segments last ∧ ∃ written,
      mapping.space = normalize written := by
  have hlongest := covering?_bindAll.1 hcovering
  obtain ⟨binding, -, hspace⟩ :=
    isSome_lastBound?_iff.1 (Option.isSome_of_eq_some hlongest.bound_eq)
  obtain ⟨segments, last, htext, hsegments⟩ := exists_segments hname (hspace ▸ hlongest.covers)
  exact ⟨segments, last, ⟨hspace ▸ htext, hsegments⟩, binding.1, hspace.symm⟩

namespace Below

variable {segments : List Text} {last : Text} (h : Below mapping name segments last)
include h

/-- The last part of a class name is an identifier. -/
theorem isIdentifier_last : isIdentifier last = true :=
  h.identifiers last List.mem_concat_self

/-- The factory lies beside the class. -/
theorem withSuffix (hsuffix : isIdentifier suffix = true) :
    Below mapping (name.withSuffix suffix) segments (last ++ suffix) where
  text_eq := by
    rw [ClassName.withSuffix, h.text_eq, List.append_assoc, intercalate_concat_append]
  identifiers segment hsegment := by
    rcases List.mem_append.1 hsegment with hsegment | hsegment
    · exact h.identifiers segment (List.mem_append_left _ hsegment)
    · rw [List.mem_singleton.1 hsegment, isIdentifier_iff]
      obtain ⟨hhead, hchars⟩ := isIdentifier_iff.1 h.isIdentifier_last
      refine ⟨?_, fun c hc =>
        (List.mem_append.1 hc).elim (hchars c) ((isIdentifier_iff.1 hsuffix).2 c)⟩
      cases last with
      | nil => cases hhead
      | cons c last => exact hhead

/-- The last segment is the short name. -/
theorem last_eq (hspace : ∃ written, mapping.space = normalize written) :
    last = name.shortName := by
  obtain ⟨written, hwritten⟩ := hspace
  have hlast : Text.afterLast '\\' last = last :=
    Text.afterLast_of_not_mem (not_mem_of_isIdentifier h.isIdentifier_last rfl)
  rw [ClassName.shortName, h.text_eq]
  rcases List.eq_nil_or_concat segments with rfl | ⟨segments, segment, rfl⟩
  · rw [List.nil_append, List.intercalate_singleton]
    rcases normalize_eq_nil_or_concat written with hnil | ⟨before, hbefore⟩
    · rw [hwritten, hnil, List.nil_append, hlast]
    · rw [hwritten, hbefore, List.append_assoc, List.singleton_append,
        Text.afterLast_append_cons, hlast]
  · rw [List.concat_eq_append, intercalate_append (List.concat_ne_nil _ _) (List.cons_ne_nil _ _),
      List.intercalate_singleton, ← List.append_assoc, Text.afterLast_append_cons, hlast]

/-- The file of the class stands by its name in the directory of the other segments. -/
theorem file_eq_join : Mapping.file mapping name =
    Path.join (segments.foldl Path.join mapping.directory) (last ++ ".php".toList) := by
  have hlast : Path.isAbsolute (last ++ ".php".toList) = false :=
    Path.isAbsolute_name_append h.isIdentifier_last _
  have hnames : ∀ segment ∈ segments, isIdentifier segment = true := fun segment hmem =>
    h.identifiers segment (List.mem_append_left _ hmem)
  have hfold := Path.foldl_join hnames hlast mapping.directory
  rw [List.foldl_append] at hfold
  exact (file_eq h.text_eq h.identifiers).trans hfold.symm

/-- Walked from anywhere, the path of the file ends in the segments and the name of the file. -/
theorem walk_file (place : List Text) : Path.walk place (Mapping.file mapping name) =
    Path.walk place mapping.directory ++ (segments ++ [last ++ ".php".toList]) := by
  obtain ⟨hslash, hidle, hdots⟩ := fileName_of_isIdentifier h.isIdentifier_last
  have hsegment : ∀ segment ∈ segments, '/' ∉ segment ∧
      ¬Path.isIdle segment = true ∧ segment ≠ ['.', '.'] := by
    intro segment hmem
    have hidentifier := h.identifiers segment (List.mem_append_left _ hmem)
    have hdot : '.' ∉ segment := not_mem_of_isIdentifier hidentifier rfl
    refine ⟨not_mem_of_isIdentifier hidentifier rfl, Path.not_isIdle_of_not_mem hdot ?_, ?_⟩
    · rintro rfl
      cases hidentifier
    · rintro rfl
      exact hdot List.mem_cons_self
  have hjoin : Mapping.file mapping name =
      (segments ++ [last ++ ".php".toList]).foldl Path.join mapping.directory := by
    rw [h.file_eq_join, List.foldl_append]
    rfl
  have hnames : ∀ segment ∈ segments ++ [last ++ ".php".toList], '/' ∉ segment ∧
      ¬Path.isIdle segment = true ∧ segment ≠ ['.', '.'] := by
    intro segment hmem
    rcases List.mem_append.1 hmem with hmem | hmem
    · exact hsegment segment hmem
    · exact List.mem_singleton.1 hmem ▸ ⟨hslash, hidle, hdots⟩
  rw [hjoin, Path.walk_foldl_join fun segment hmem => (hnames segment hmem).1]
  exact Location.foldl_step_names (fun segment hmem => (hnames segment hmem).2) _

end Below

/-- **Different classes of one namespace lie in different places.** -/
theorem walk_file_inj {segments others : List Text} {last otherLast : Text}
    (h : Below mapping name segments last) (ho : Below mapping other others otherLast)
    {place : List Text}
    (hwalk : Path.walk place (Mapping.file mapping other) =
      Path.walk place (Mapping.file mapping name)) : other = name := by
  rw [h.walk_file, ho.walk_file, List.append_cancel_left_eq] at hwalk
  obtain ⟨hsegments, hlast⟩ := List.append_inj' hwalk rfl
  obtain rfl : otherLast = last := List.append_cancel_right (List.singleton_inj.1 hlast)
  obtain ⟨text⟩ := other
  obtain ⟨text'⟩ := name
  rw [ClassName.mk.injEq]
  exact ho.text_eq.trans (hsegments ▸ h.text_eq.symm)

/-- A class resolves to the file that the mapping which covers it gives. -/
theorem resolve_eq_ok_iff {path : Path} : autoload.resolve name = .ok path ↔
    ∃ mapping, autoload.covering? name = some mapping ∧ Mapping.file mapping name = path := by
  unfold resolve
  cases autoload.covering? name with
  | none => exact iff_of_false nofun nofun
  | some mapping =>
    refine ⟨fun h => ⟨mapping, rfl, Except.ok.inj h⟩, ?_⟩
    rintro ⟨_, ⟨⟩, rfl⟩
    rfl

/-- **The file of a factory lies beside the file of its class.**  The suffix is that of settings
that pass their check, and the map comes from any sequence of insertions. One mapping decides for
both names, so the factory has a path exactly if the class has one. The two paths have one parent,
and the file of the factory is named after the class with the suffix. Two different classes that
one mapping decides for never have the same path: wherever one starts, they lead to different
places. -/
theorem factoryPath_beside (hname : name.WellFormed) {settings : Settings}
    (hsettings : settings.check = .ok settings) (bindings : List (Text × Path)) :
    (bindAll bindings).covering? (name.withSuffix settings.suffix) =
        (bindAll bindings).covering? name ∧
    ((∃ path, (bindAll bindings).factoryPath name settings.suffix = .ok path) ↔
      ∃ path, (bindAll bindings).resolve name = .ok path) ∧
    (∀ path factory, (bindAll bindings).resolve name = .ok path →
      (bindAll bindings).factoryPath name settings.suffix = .ok factory →
      (∃ directory, Path.parent? path = some directory ∧ Path.parent? factory = some directory) ∧
        Path.fileName? factory = some (name.shortName ++ settings.suffix ++ ".php".toList)) ∧
    ∀ other : ClassName, other.WellFormed → other ≠ name →
      (bindAll bindings).covering? other = (bindAll bindings).covering? name →
      ∀ path otherPath, (bindAll bindings).resolve name = .ok path →
        (bindAll bindings).resolve other = .ok otherPath →
        ∀ place, Path.walk place otherPath ≠ Path.walk place path := by
  have hsuffix := Settings.isIdentifier_suffix_of_check hsettings
  have hcovering := covering?_withSuffix (normal_bindAll bindings)
    (not_mem_of_isIdentifier hsuffix (c := '\\') rfl) name
  refine ⟨hcovering, ?_, fun path factory hpath hfactory => ?_,
    fun other hother hne hsame path otherPath hpath hotherPath place hwalk => ?_⟩
  · simp only [factoryPath, resolve_eq_ok_iff, hcovering]
    exact ⟨fun ⟨_, mapping, hmapping, _⟩ => ⟨_, mapping, hmapping, rfl⟩,
      fun ⟨_, mapping, hmapping, _⟩ => ⟨_, mapping, hmapping, rfl⟩⟩
  · obtain ⟨mapping, hmapping, rfl⟩ := resolve_eq_ok_iff.1 hpath
    obtain ⟨found, hfound, rfl⟩ := resolve_eq_ok_iff.1 hfactory
    obtain rfl : mapping = found :=
      Option.some.inj (hmapping.symm.trans (hcovering.symm.trans hfound))
    obtain ⟨segments, last, hbelow, hspace⟩ := exists_below hname hmapping
    have hbeside := hbelow.withSuffix hsuffix
    obtain ⟨hslash, hidle, -⟩ := fileName_of_isIdentifier hbelow.isIdentifier_last
    obtain ⟨hslash', hidle', hdots'⟩ := fileName_of_isIdentifier hbeside.isIdentifier_last
    rw [hbelow.file_eq_join, hbeside.file_eq_join, ← hbelow.last_eq hspace]
    obtain ⟨directory, hdirectory⟩ :=
      Path.exists_parent?_join (segments.foldl Path.join mapping.directory) hslash' hidle'
    exact ⟨⟨directory, (Path.parent?_join ⟨hslash, hidle⟩ ⟨hslash', hidle'⟩).trans hdirectory,
      hdirectory⟩, Path.fileName?_join hslash' hidle' hdots'⟩
  · obtain ⟨mapping, hmapping, rfl⟩ := resolve_eq_ok_iff.1 hpath
    obtain ⟨found, hfound, rfl⟩ := resolve_eq_ok_iff.1 hotherPath
    obtain rfl : mapping = found :=
      Option.some.inj (hmapping.symm.trans (hsame.symm.trans hfound))
    obtain ⟨segments, last, hbelow, -⟩ := exists_below hname hmapping
    obtain ⟨others, otherLast, hotherBelow, -⟩ := exists_below hother hfound
    exact hne (walk_file_inj hbelow hotherBelow hwalk)

/-- A namespace that ends inside the name of the class does not count, and a class of one segment
more lies elsewhere. -/
theorem factoryPath_beside_login :
    let name : ClassName := ⟨"App\\Form\\Login".toList⟩
    let other : ClassName := ⟨"App\\Form\\Login\\Form".toList⟩
    let autoload := bindAll [("App\\Form\\Log".toList, "/log".toList),
      ("\\App\\Form".toList, "./forms//".toList), ([], "/lib".toList)]
    name.WellFormed ∧ other.WellFormed ∧ Settings.default.check = .ok .default ∧
      autoload.covering? (name.withSuffix Settings.default.suffix) = autoload.covering? name ∧
      autoload.resolve name = .ok "./forms//Login.php".toList ∧
      autoload.factoryPath name Settings.default.suffix =
        .ok "./forms//LoginFactory.php".toList ∧
      (∃ directory, Path.parent? "./forms//Login.php".toList = some directory ∧
        Path.parent? "./forms//LoginFactory.php".toList = some directory) ∧
      Path.fileName? "./forms//LoginFactory.php".toList = some "LoginFactory.php".toList ∧
      autoload.resolve other = .ok "./forms//Login/Form.php".toList ∧
      Path.walk [] "./forms//Login/Form.php".toList ≠ Path.walk [] "./forms//Login.php".toList := by
  intro name other autoload
  have hwell : ∀ name : ClassName, ClassName.parse name.text = .ok name → name.WellFormed :=
    fun _ => ClassName.wellFormed_of_parse
  have hname : name.WellFormed := hwell name (by decide +kernel)
  have hother : other.WellFormed := hwell other (by decide +kernel)
  have hsettings : Settings.default.check = .ok .default := by decide +kernel
  have hpath : autoload.resolve name = .ok "./forms//Login.php".toList := by decide +kernel
  have hfactory : autoload.factoryPath name Settings.default.suffix =
      .ok "./forms//LoginFactory.php".toList := by decide +kernel
  have hotherPath : autoload.resolve other = .ok "./forms//Login/Form.php".toList := by
    decide +kernel
  obtain ⟨hcovering, -, hbeside, hinj⟩ := factoryPath_beside hname hsettings
    [("App\\Form\\Log".toList, "/log".toList), ("\\App\\Form".toList, "./forms//".toList),
      ([], "/lib".toList)]
  obtain ⟨hparent, hfile⟩ := hbeside _ _ hpath hfactory
  have hshort : name.shortName ++ Settings.default.suffix ++ ".php".toList =
      "LoginFactory.php".toList := by decide +kernel
  exact ⟨hname, hother, hsettings, hcovering, hpath, hfactory, hparent, hshort ▸ hfile, hotherPath,
    hinj other hother (by decide +kernel) (by decide +kernel) _ _ hpath hotherPath []⟩

end Autoload
end Scaffold
