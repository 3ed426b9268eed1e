import CommentProse.Proofs.Files.Ancestors
import CommentProse.Settings.Reader
import CommentProse.Settings.Search
import Mathlib.Data.List.Find

/-! # Which settings are found

A search for settings stops at the nearest settings file on the way up, and tries the user's
directories if this file has a fault. `Settings.Chosen` says what it comes to without searching;
`Settings.load_follows_precedence` says that it comes to nothing else and never fails, that a file
that the user names is all that counts then, and that nothing behind the file whose settings are
taken has a part in the search.

Nothing is assumed of the files, nor of the way in which settings are read from a text.
-/

namespace CommentProse

namespace Settings

section Choices

variable {Fault Complaint : Type} (files : FileSystem Fault)
  (parse : List Char → Except Complaint Settings)

/-- The file can be read, and these settings are in it. -/
def Holds (path : Path) (settings : Settings) : Prop :=
  ∃ text, files.read path = .ok text ∧ parse text = .ok settings

/-- The settings file of a directory. The hidden name goes first. -/
inductive FileOf (directory : Path) : Path → Prop where
  | hidden (there : files.isFile (directory.join ".docprose.toml".toList) = true) :
    FileOf directory (directory.join ".docprose.toml".toList)
  | plain (noHidden : files.isFile (directory.join ".docprose.toml".toList) = false)
    (there : files.isFile (directory.join "docprose.toml".toList) = true) :
    FileOf directory (directory.join "docprose.toml".toList)

/-- The settings file of the nearest directory on the way up that has one. -/
def Nearest (start path : Path) : Prop :=
  ∃ below directory above, start.ancestors = below ++ directory :: above ∧
    (∀ lower ∈ below, ∀ other, ¬FileOf files lower other) ∧ FileOf files directory path

/-- The settings file of the user. The one in the configuration directory goes first. -/
inductive UserFile (directories : UserDirectories) : Path → Prop where
  | configuration {directory : Path} (set : directories.configuration = some directory)
    (there : files.isFile ((directory.join "docprose".toList).join "config.toml".toList) = true) :
    UserFile directories ((directory.join "docprose".toList).join "config.toml".toList)
  | home {directory : Path} (noOther : ∀ other, directories.configuration = some other →
      files.isFile ((other.join "docprose".toList).join "config.toml".toList) = false)
    (set : directories.home = some directory)
    (there : files.isFile (((directory.join ".config".toList).join "docprose".toList).join
      "config.toml".toList) = true) :
    UserFile directories
      (((directory.join ".config".toList).join "docprose".toList).join "config.toml".toList)

/-- What a search comes to: the settings in the nearest file, else those in the user's file, else
the standard ones. A file that does not hold settings counts as none. -/
inductive Chosen (directories : UserDirectories) (start : Path) : FoundSettings → Prop where
  | nearest {path : Path} {settings : Settings} (first : Nearest files start path)
    (holds : Holds files parse path settings) : Chosen directories start ⟨settings, some path⟩
  | user {path : Path} {settings : Settings}
    (noNearest : ∀ path, Nearest files start path → ∀ settings, ¬Holds files parse path settings)
    (first : UserFile files directories path) (holds : Holds files parse path settings) :
    Chosen directories start ⟨settings, some path⟩
  | standard
    (noNearest : ∀ path, Nearest files start path → ∀ settings, ¬Holds files parse path settings)
    (noUser : ∀ path, UserFile files directories path →
      ∀ settings, ¬Holds files parse path settings) :
    Chosen directories start ⟨standard, none⟩

end Choices

variable {Fault Complaint : Type} {files other : FileSystem Fault}
  {parse : List Char → Except Complaint Settings} {directories : UserDirectories}
  {start path : Path} {paths : List Path} {found : FoundSettings}

/-! ### Reading a file -/

theorem readFile_eq_ok_iff :
    readFile files parse path = .ok found ↔
      ∃ settings, Holds files parse path settings ∧ found = ⟨settings, some path⟩ := by
  rw [readFile]
  constructor
  · intro read
    split at read
    · cases read
    · next text contents =>
      split at read
      · next settings parsed =>
        cases read
        exact ⟨settings, ⟨text, contents, parsed⟩, rfl⟩
      · cases read
  · rintro ⟨settings, ⟨text, contents, parsed⟩, rfl⟩
    rw [contents]
    dsimp only
    rw [parsed]

theorem readFile_eq_error_iff {fault : SettingsFault Fault Complaint} :
    readFile files parse path = .error fault ↔
      (∃ reason, files.read path = .error reason ∧ fault = .unreadable reason) ∨
        ∃ text complaint, files.read path = .ok text ∧ parse text = .error complaint ∧
          fault = .invalid path complaint := by
  rw [readFile]
  constructor
  · intro read
    split at read
    · next reason contents =>
      cases read
      exact .inl ⟨reason, contents, rfl⟩
    · next text contents =>
      split at read
      · cases read
      · next complaint invalid =>
        cases read
        exact .inr ⟨text, complaint, contents, invalid, rfl⟩
  · rintro (⟨reason, contents, rfl⟩ | ⟨text, complaint, contents, invalid, rfl⟩)
    · rw [contents]
    · rw [contents]
      dsimp only
      rw [invalid]

/-- Reading a file depends on what is read there alone. -/
theorem readFile_congr (same : other.read path = files.read path) :
    readFile other parse path = readFile files parse path := by
  rw [readFile, readFile, same]

theorem holds_congr (same : other.read path = files.read path) {settings : Settings} :
    Holds other parse path settings ↔ Holds files parse path settings := by
  rw [Holds, Holds, same]

/-! ### The first file -/

theorem firstOf?_eq_some_iff :
    firstOf? files parse paths = some found ↔
      ∃ path settings, paths.find? files.isFile = some path ∧ Holds files parse path settings ∧
        found = ⟨settings, some path⟩ := by
  rw [firstOf?, Option.bind_eq_some_iff]
  refine exists_congr fun path => ?_
  rw [exists_and_left, ← readFile_eq_ok_iff]
  cases readFile files parse path <;> simp [Except.toOption]

theorem firstOf?_eq_none_iff :
    firstOf? files parse paths = none ↔
      ∀ path, paths.find? files.isFile = some path →
        ∀ settings, ¬Holds files parse path settings := by
  constructor
  · intro none path first settings holds
    have found := firstOf?_eq_some_iff.mpr ⟨path, settings, first, holds, rfl⟩
    rw [none] at found
    cases found
  · intro faulty
    refine Option.eq_none_iff_forall_ne_some.mpr fun found settled => ?_
    obtain ⟨path, settings, first, holds, rfl⟩ := firstOf?_eq_some_iff.mp settled
    exact faulty path first settings holds

theorem find?_fileNames_eq_some_iff {directory : Path} :
    (fileNames.map directory.join).find? files.isFile = some path ↔
      FileOf files directory path := by
  rw [fileNames, List.map_cons, List.map_cons, List.map_nil, List.find?_cons, List.find?_cons,
    List.find?_nil]
  constructor
  · intro first
    split at first
    · next there =>
      cases first
      exact .hidden there
    · next noHidden =>
      split at first
      · next there =>
        cases first
        exact .plain noHidden there
      · cases first
  · intro first
    cases first with
    | hidden there => rw [there]
    | plain noHidden there => rw [noHidden, there]

/-- The first file on the way up is the one of the nearest directory that has one. -/
theorem find?_localPaths_eq_some_iff :
    (localPaths start).find? files.isFile = some path ↔ Nearest files start path := by
  rw [localPaths, List.find?_flatMap, List.findSome?_eq_some_iff]
  refine exists_congr fun below => exists_congr fun directory => exists_congr fun above => ?_
  refine and_congr_right fun _ => ?_
  rw [find?_fileNames_eq_some_iff, and_comm]
  refine and_congr_left fun _ => forall₂_congr fun lower _ => ?_
  rw [Option.eq_none_iff_forall_ne_some]
  exact forall_congr' fun other => not_congr find?_fileNames_eq_some_iff

private theorem find?_toList_eq_some_iff {place : Path → Path} {directory? : Option Path} :
    (directory?.toList.map place).find? files.isFile = some path ↔
      ∃ directory, directory? = some directory ∧ files.isFile (place directory) = true ∧
        place directory = path := by
  cases directory? with
  | none => simp
  | some directory =>
    rw [Option.toList_some, List.map_singleton, List.find?_singleton]
    simp

private theorem find?_toList_eq_none_iff {place : Path → Path} {directory? : Option Path} :
    (directory?.toList.map place).find? files.isFile = none ↔
      ∀ directory, directory? = some directory → files.isFile (place directory) = false := by
  cases directory? with
  | none => simp
  | some directory => simp

/-- Of the user's files the one in the configuration directory is tried first. -/
theorem find?_userPaths_eq_some_iff :
    (userPaths directories).find? files.isFile = some path ↔ UserFile files directories path := by
  rw [userPaths, List.find?_append, Option.or_eq_some_iff, find?_toList_eq_some_iff,
    find?_toList_eq_none_iff, find?_toList_eq_some_iff]
  constructor
  · rintro (⟨directory, set, there, rfl⟩ | ⟨noOther, directory, set, there, rfl⟩)
    · exact .configuration set there
    · exact .home noOther set there
  · intro first
    cases first with
    | configuration set there => exact .inl ⟨_, set, there, rfl⟩
    | home noOther set there => exact .inr ⟨noOther, _, set, there, rfl⟩

/-! ### Searching -/

/-- A search comes to what the nearest file, the user's file and the standard settings say. -/
theorem load_search_eq_ok_iff :
    load files parse directories none start = .ok found ↔
      Chosen files parse directories start found := by
  have noNearest : firstOf? files parse (localPaths start) = none ↔
      ∀ path, Nearest files start path → ∀ settings, ¬Holds files parse path settings := by
    simp only [firstOf?_eq_none_iff, find?_localPaths_eq_some_iff]
  have noUser : firstOf? files parse (userPaths directories) = none ↔
      ∀ path, UserFile files directories path → ∀ settings, ¬Holds files parse path settings := by
    simp only [firstOf?_eq_none_iff, find?_userPaths_eq_some_iff]
  simp only [load, Except.ok.injEq]
  constructor
  · rintro rfl
    cases near : firstOf? files parse (localPaths start) with
    | some found =>
      obtain ⟨path, settings, first, holds, rfl⟩ := firstOf?_eq_some_iff.mp near
      exact .nearest (find?_localPaths_eq_some_iff.mp first) holds
    | none =>
      cases far : firstOf? files parse (userPaths directories) with
      | some found =>
        obtain ⟨path, settings, first, holds, rfl⟩ := firstOf?_eq_some_iff.mp far
        exact .user (noNearest.mp near) (find?_userPaths_eq_some_iff.mp first) holds
      | none => exact .standard (noNearest.mp near) (noUser.mp far)
  · intro chosen
    cases chosen with
    | nearest first holds =>
      have near := firstOf?_eq_some_iff.mpr
        ⟨_, _, find?_localPaths_eq_some_iff.mpr first, holds, rfl⟩
      rw [near]
      rfl
    | user faulty first holds =>
      have far := firstOf?_eq_some_iff.mpr
        ⟨_, _, find?_userPaths_eq_some_iff.mpr first, holds, rfl⟩
      rw [noNearest.mpr faulty, far]
      rfl
    | standard faulty userFaulty =>
      rw [noNearest.mpr faulty, noUser.mpr userFaulty]
      rfl

/-! ### What has no part in a search -/

/-- All files that a search may try, in this order. -/
def candidates (directories : UserDirectories) (start : Path) : List Path :=
  localPaths start ++ userPaths directories

/-- Where the first file was found, the files before it are known to be none. -/
theorem exists_front_of_find? (first : paths.find? files.isFile = some path) :
    ∃ front back, paths = front ++ path :: back ∧ path ∉ front ∧
      ∀ other : FileSystem Fault, (∀ candidate ∈ front ++ [path], files.AgreeAt other candidate) →
        paths.find? other.isFile = some path := by
  obtain ⟨there, front, back, rfl, missing⟩ := List.find?_eq_some_iff_append.mp first
  refine ⟨front, back, rfl, fun inside => ?_, fun other same => ?_⟩
  · have absent := missing path inside
    simp [there] at absent
  · refine List.find?_eq_some_iff_append.mpr ⟨?_, front, back, rfl, fun candidate before => ?_⟩
    · rw [(same path (by simp)).1, there]
    · rw [(same candidate (List.mem_append_left _ before)).1]
      exact missing candidate before

theorem firstOf?_congr (same : ∀ candidate ∈ paths, files.AgreeAt other candidate) :
    firstOf? other parse paths = firstOf? files parse paths := by
  have first : paths.find? other.isFile = paths.find? files.isFile :=
    List.find?_congr fun candidate member => (same candidate member).1
  rw [firstOf?, firstOf?, first]
  cases found : paths.find? files.isFile with
  | none => rfl
  | some path =>
    have member := List.mem_of_find?_eq_some found
    rw [Option.bind_some, Option.bind_some, readFile_congr (same path member).2]

/-- A part of a list in which an element is missing ends before this element. -/
private theorem isPrefix_of_append_cons {front back before after : List Path}
    (same : front ++ path :: back = before ++ path :: after) (missing : path ∉ front) :
    front <+: before := by
  obtain ⟨between, rfl, -⟩ | ⟨between, rfl, rest⟩ := List.append_eq_append_iff.mp same
  · exact List.prefix_append _ _
  · cases between with
    | nil => rw [List.append_nil]
    | cons first between =>
      obtain rfl : path = first := (List.cons.inj rest).1
      simp at missing

private theorem suffix_join {directory name : Path} (relative : name.head? ≠ some '/') :
    name <:+ directory.join name := by
  rw [Path.join, if_neg relative]
  split
  · exact List.suffix_append _ _
  · exact (List.suffix_cons _ _).trans (List.suffix_append _ _)

/-- The user's file is never one that is looked for on the way up: its name is another. -/
theorem UserFile.notMem_localPaths (first : UserFile files directories path) :
    path ∉ localPaths start := by
  have user : "config.toml".toList <:+ path := by
    cases first <;> exact suffix_join (by decide)
  intro member
  obtain ⟨directory, -, among⟩ := List.mem_flatMap.mp member
  obtain ⟨name, named, rfl⟩ := List.mem_map.mp among
  have ending : "docprose.toml".toList <:+ directory.join name := by
    rw [fileNames, List.mem_cons, List.mem_singleton] at named
    rcases named with rfl | rfl
    · exact List.IsSuffix.trans (by decide) (suffix_join (by decide))
    · exact suffix_join (by decide)
  have nested := List.suffix_of_suffix_length_le user ending (by decide)
  revert nested
  decide

/-- What is changed behind the file whose settings are taken changes nothing. -/
theorem load_search_of_agree {settings : Settings} {before after : List Path}
    (loaded : load files parse directories none start = .ok ⟨settings, some path⟩)
    (split : candidates directories start = before ++ path :: after)
    (same : ∀ candidate ∈ before ++ [path], files.AgreeAt other candidate) :
    load other parse directories none start = .ok ⟨settings, some path⟩ := by
  have here : files.AgreeAt other path := same path (by simp)
  -- A front part of the candidates without the path is among those that are the same.
  have earlier {front back : List Path}
      (parts : candidates directories start = front ++ path :: back) (missing : path ∉ front) :
      ∀ candidate ∈ front, files.AgreeAt other candidate :=
    fun candidate member => same candidate (List.mem_append_left _
      ((isPrefix_of_append_cons (parts.symm.trans split) missing).subset member))
  rw [load_search_eq_ok_iff] at loaded ⊢
  cases loaded with
  | nearest first holds =>
    obtain ⟨front, back, parts, missing, agree⟩ :=
      exists_front_of_find? (find?_localPaths_eq_some_iff.mpr first)
    have start_eq : candidates directories start =
        front ++ path :: (back ++ userPaths directories) := by
      rw [candidates, parts, List.append_assoc, List.cons_append]
    refine .nearest (find?_localPaths_eq_some_iff.mp (agree other ?_))
      ((holds_congr here.2).mpr holds)
    exact List.forall_mem_append.mpr
      ⟨earlier start_eq missing, List.forall_mem_singleton.mpr here⟩
  | user faulty first holds =>
    obtain ⟨front, back, parts, missing, agree⟩ :=
      exists_front_of_find? (find?_userPaths_eq_some_iff.mpr first)
    have start_eq : candidates directories start =
        (localPaths start ++ front) ++ path :: back := by
      rw [candidates, parts, List.append_assoc]
    obtain ⟨locals, users⟩ := List.forall_mem_append.mp
      (earlier start_eq (List.not_mem_append first.notMem_localPaths missing))
    refine .user ?_ (find?_userPaths_eq_some_iff.mp (agree other ?_))
      ((holds_congr here.2).mpr holds)
    · have none : firstOf? other parse (localPaths start) = none := by
        rw [firstOf?_congr locals, firstOf?_eq_none_iff]
        exact fun other first => faulty other (find?_localPaths_eq_some_iff.mp first)
      rw [firstOf?_eq_none_iff] at none
      exact fun other first => none other (find?_localPaths_eq_some_iff.mpr first)
    · exact List.forall_mem_append.mpr ⟨users, List.forall_mem_singleton.mpr here⟩

/-- However files are read and settings are parsed: a file that the user names is read, or its fault
is reported, and nothing else counts. A search always comes to settings: to those in the nearest
settings file on the way up, else to those in the user's file, else to the standard ones; and once a
file holds settings, nothing that is tried later can change them. The way up goes from a path to the
paths with fewer of its components. -/
theorem load_follows_precedence {Fault Complaint : Type} (files : FileSystem Fault)
    (parse : List Char → Except Complaint Settings) (directories : UserDirectories)
    (start : Path) :
    (∀ path,
      (∀ found, load files parse directories (some path) start = .ok found ↔
        ∃ settings, Holds files parse path settings ∧ found = ⟨settings, some path⟩) ∧
      (∀ fault, load files parse directories (some path) start = .error fault ↔
        (∃ reason, files.read path = .error reason ∧ fault = .unreadable reason) ∨
          ∃ text complaint, files.read path = .ok text ∧ parse text = .error complaint ∧
            fault = .invalid path complaint) ∧
      ∀ (other : FileSystem Fault) directories' start', other.read path = files.read path →
        load other parse directories' (some path) start' =
          load files parse directories (some path) start) ∧
    (∃ found, load files parse directories none start = .ok found) ∧
    (∀ found, load files parse directories none start = .ok found ↔
      Chosen files parse directories start found) ∧
    (∀ settings before path after,
      load files parse directories none start = .ok ⟨settings, some path⟩ →
      candidates directories start = before ++ path :: after →
      ∀ other : FileSystem Fault, (∀ candidate ∈ before ++ [path], files.AgreeAt other candidate) →
        load other parse directories none start = .ok ⟨settings, some path⟩) ∧
    start.ancestors.map Path.components =
      (if start.components.head? = some ['/'] then start.components.inits.tail
        else start.components.inits).reverse := by
  refine ⟨fun path => ⟨fun found => readFile_eq_ok_iff, fun fault => readFile_eq_error_iff, ?_⟩,
    ⟨_, rfl⟩, fun found => load_search_eq_ok_iff, ?_, start.map_components_ancestors⟩
  · intro other directories' start' same
    exact readFile_congr same
  · intro settings before path after loaded split other same
    exact load_search_of_agree loaded split same

/-- A directory that has the hidden name is passed over. If the file above it has a fault, the one
above that is not tried; if it holds settings, what becomes of the files behind it does not
matter. -/
theorem load_follows_precedence_directory_on_the_way :
    let faulty := FileTree.ofFiles
      [("a/docprose.toml".toList, "block_elements = 3".toUTF8), ("docprose.toml".toList, ⟨#[]⟩),
        ("h/.config/docprose/config.toml".toList, "blank_lines_break_regions = false".toUTF8)]
      ["a/b/.docprose.toml".toList]
    let valid := FileTree.ofFiles
      [("a/docprose.toml".toList, "inline_tags_break_regions = true".toUTF8)]
      ["a/b/.docprose.toml".toList]
    let more := FileTree.ofFiles
      [("a/docprose.toml".toList, "inline_tags_break_regions = true".toUTF8),
        (".docprose.toml".toList, "verbatim_elements = []".toUTF8)]
      ["a/b/.docprose.toml".toList, "h/.config/docprose/config.toml".toList]
    let directories : UserDirectories := ⟨some "x".toList, some "h".toList⟩
    let dividing : FoundSettings :=
      ⟨{ standard with referencesDivide := true }, some "a/docprose.toml".toList⟩
    Chosen faulty.fileSystem Settings.parse directories "a/b".toList
        ⟨{ standard with blankLinesDivide := false },
          some "h/.config/docprose/config.toml".toList⟩ ∧
      load faulty.fileSystem Settings.parse directories (some "a/docprose.toml".toList) [] =
        .error (.invalid "a/docprose.toml".toList "the document gives no settings") ∧
      load valid.fileSystem Settings.parse directories none "a/b".toList = .ok dividing ∧
      load more.fileSystem Settings.parse directories none "a/b".toList = .ok dividing := by
  intro faulty valid more directories dividing
  obtain ⟨named, -, -, -, -⟩ :=
    load_follows_precedence faulty.fileSystem Settings.parse directories []
  obtain ⟨-, -, chosen, -, -⟩ :=
    load_follows_precedence faulty.fileSystem Settings.parse directories "a/b".toList
  obtain ⟨-, -, -, unchanged, -⟩ :=
    load_follows_precedence valid.fileSystem Settings.parse directories "a/b".toList
  have loaded : load valid.fileSystem Settings.parse directories none "a/b".toList =
      .ok dividing := by decide +kernel
  have tried : candidates directories "a/b".toList =
      ["a/b/.docprose.toml".toList, "a/b/docprose.toml".toList, "a/.docprose.toml".toList] ++
        "a/docprose.toml".toList ::
          [".docprose.toml".toList, "docprose.toml".toList, "x/docprose/config.toml".toList,
            "h/.config/docprose/config.toml".toList] := by decide +kernel
  refine ⟨(chosen _).mp (by decide +kernel), ?_, loaded,
    unchanged _ _ _ _ loaded tried more.fileSystem ?_⟩
  · refine ((named _).2.1 _).mpr (.inr ⟨"block_elements = 3".toList, _, ?_, ?_, rfl⟩)
    · decide +kernel
    · decide +kernel
  · simp only [FileSystem.AgreeAt]
    decide +kernel

end Settings

end CommentProse
