import ServerPages.Proofs.Collected

/-! The files a page depends on. A file joins the list unless one is there already that its path leads to;
so a list that is made file by file holds the first of each, and what is in it stays where it is. The master
page is first, then come the user controls in the order in which the page registers them. -/

namespace ServerPages

theorem Path.same_iff {a b : Text} : Path.same a b = true ↔ Path.components a = Path.components b :=
  beq_iff_eq

/-- Two paths that do not lead to one file. -/
def Path.Differ (a b : Text) : Prop := Path.components a ≠ Path.components b

theorem Path.same_eq_false_iff {a b : Text} : Path.same a b = false ↔ Path.Differ a b := by
  rw [← Bool.not_eq_true, same_iff]
  rfl

/-- Of some files the first of each: a file is left out if an earlier one has the same path. -/
def firstFiles : List Text → List Text
  | [] => []
  | file :: files => file :: (firstFiles files).filter fun other => !Path.same file other

theorem firstFiles_pairwise (files : List Text) : (firstFiles files).Pairwise Path.Differ := by
  induction files with
  | nil => exact .nil
  | cons file files ih =>
    refine List.pairwise_cons.2 ⟨fun other hother => ?_, ih.sublist List.filter_sublist⟩
    have hnew := (List.mem_filter.1 hother).2
    rwa [Bool.not_eq_true', Path.same_eq_false_iff] at hnew

theorem exists_mem_firstFiles {files : List Text} {file : Text} (h : file ∈ files) :
    ∃ first ∈ firstFiles files, Path.components first = Path.components file := by
  induction files with
  | nil => cases h
  | cons head files ih =>
    by_cases hsame : Path.components head = Path.components file
    · exact ⟨head, List.mem_cons_self .., hsame⟩
    · have hmem : file ∈ files :=
        (List.mem_cons.1 h).resolve_left fun heq => hsame (congrArg _ heq.symm)
      obtain ⟨first, hfirst, heq⟩ := ih hmem
      refine ⟨first, List.mem_cons_of_mem _ (List.mem_filter.2 ⟨hfirst, ?_⟩), heq⟩
      rw [Bool.not_eq_true', Path.same_eq_false_iff, Path.Differ, heq]
      exact hsame

/-- Files join a list behind those that are in it: the first of each that is not. -/
theorem foldl_addFile (files more : List Text) : more.foldl addFile files =
    files ++ (firstFiles more).filter fun file => !files.any (Path.same file) := by
  induction more generalizing files with
  | nil => simp [firstFiles]
  | cons file more ih =>
    rw [List.foldl_cons, ih, firstFiles, List.filter_cons, List.filter_filter, addFile]
    by_cases hknown : files.any (Path.same file) = true
    · -- a later file with the path of this one is known as well
      rw [if_pos hknown, hknown]
      congr 1
      refine List.filter_congr fun other _ => ?_
      by_cases hsame : Path.components file = Path.components other
      · have hother : files.any (Path.same other) = true := by
          rw [← hknown]
          exact congrArg _ (funext fun known => by rw [Path.same, Path.same, hsame])
        simp [hother]
      · have hother : Path.same file other = false := Path.same_eq_false_iff.2 hsame
        simp [hother]
    · rw [if_neg hknown, if_pos (by simpa using hknown), List.append_assoc, List.singleton_append]
      congr 2
      refine List.filter_congr fun other _ => ?_
      rw [List.any_append, Bool.not_or, Bool.and_comm, Bool.and_comm (!files.any _)]
      congr 1
      rw [List.any_cons, List.any_nil, Bool.or_false, Path.same, Path.same, Bool.beq_comm]

theorem foldl_addFile_nil (files : List Text) : files.foldl addFile [] = firstFiles files := by
  rw [foldl_addFile]
  exact List.filter_eq_self.2 fun _ _ => rfl

theorem firstFiles_of_pairwise {files : List Text} (h : files.Pairwise Path.Differ) :
    firstFiles files = files := by
  induction files with
  | nil => rfl
  | cons file files ih =>
    obtain ⟨hfirst, hrest⟩ := List.pairwise_cons.1 h
    rw [firstFiles, ih hrest]
    refine congrArg _ (List.filter_eq_self.2 fun other hother => ?_)
    rw [Bool.not_eq_true', Path.same_eq_false_iff]
    exact hfirst other hother

/-- Files that were listed by themselves before they join a list join it as if they had come one by one. -/
theorem foldl_addFile_listed (files more : List Text) :
    (more.foldl addFile []).foldl addFile files = more.foldl addFile files := by
  rw [foldl_addFile_nil, foldl_addFile, foldl_addFile, firstFiles_of_pairwise (firstFiles_pairwise more)]

theorem pairwise_foldl_addFile {files : List Text} (h : files.Pairwise Path.Differ) (more : List Text) :
    (more.foldl addFile files).Pairwise Path.Differ := by
  rw [foldl_addFile, List.pairwise_append]
  refine ⟨h, (firstFiles_pairwise more).sublist List.filter_sublist, fun known hknown file hfile heq => ?_⟩
  have hnew := (List.mem_filter.1 hfile).2
  rw [Bool.not_eq_true', List.any_eq_false] at hnew
  exact hnew known hknown (Path.same_iff.2 heq.symm)

theorem exists_mem_foldl_addFile {file : Text} (files : List Text) {more : List Text} (h : file ∈ more) :
    ∃ listed ∈ more.foldl addFile files, Path.components listed = Path.components file := by
  obtain ⟨first, hfirst, heq⟩ := exists_mem_firstFiles h
  rw [foldl_addFile]
  by_cases hknown : files.any (Path.same first) = true
  · obtain ⟨listed, hlisted, hsame⟩ := List.any_eq_true.1 hknown
    exact ⟨listed, List.mem_append_left _ hlisted, (Path.same_iff.1 hsame).symm.trans heq⟩
  · exact ⟨first, List.mem_append_right _ (List.mem_filter.2 ⟨hfirst, by simpa using hknown⟩), heq⟩

namespace Page

theorem files_foldl_withFile (page : Page) (more : List Text) :
    (more.foldl withFile page).files = more.foldl addFile page.files := by
  induction more generalizing page with
  | nil => rfl
  | cons file more ih => exact ih (page.withFile file)

/-- The master page that the first directive about the page itself names, unless the name is blank. -/
theorem masterOf?_eq_some {path master : Text} {directive : Option PageDirective} :
    masterOf? path directive = some master ↔ ∃ d file, directive = some d ∧
      d.attribute? "MasterPageFile".toList = some file ∧ file.trim ≠ [] ∧
      master = Path.resolve path file := by
  unfold masterOf?
  generalize "MasterPageFile".toList = name
  cases directive with
  | none => simp
  | some d =>
    cases hfile : d.attribute? name with
    | none => simp [hfile]
    | some file =>
      by_cases hblank : file.trim = []
      · simp [hfile, hblank]
      · simp [hfile, hblank, eq_comm (a := master)]

/-- The file of the user control that a directive registers: it has to say the prefix, the name and the
file. -/
def registeredFile? (path : Text) (d : PageDirective) : Option Text :=
  if d.isNamed "Register".toList ∧ (d.attribute? "TagPrefix".toList).isSome ∧
      (d.attribute? "TagName".toList).isSome then
    (d.attribute? "Src".toList).map (Path.resolve path)
  else none

theorem file_registration? (site : Site) (d : PageDirective) :
    (site.registration? d).map (·.file) = registeredFile? site.path d := by
  unfold Site.registration? registeredFile?
  cases d.isNamed "Register".toList with
  | false => simp
  | true =>
    cases d.attribute? "TagPrefix".toList <;> cases d.attribute? "TagName".toList <;>
      cases d.attribute? "Src".toList <;> simp

theorem map_file_registrations (path source : Text) (lookup : Lookup) :
    let found := ((site path source lookup).visitAll .empty (parse source).nodes).2
    found.registrations.map (·.file) = found.directives.filterMap (registeredFile? path) := by
  intro found
  have hregistrations : found.registrations = _ :=
    part_eq Findings.registrations rfl (fun _ _ => rfl) (fun _ => rfl) path source lookup
  have hdirectives : found.directives = _ :=
    part_eq Findings.directives rfl (fun _ _ => rfl) (fun _ => rfl) path source lookup
  rw [hregistrations, hdirectives, List.map_flatMap, List.filterMap_flatMap]
  refine List.flatMap_congr fun spot _ => ?_
  obtain ⟨around, registered, node⟩ := spot
  cases node with
  | directive d =>
    have hfile := file_registration? (site path source lookup)
      ⟨d.name, d.attributes.map fun a => (a.name, a.value.asText),
        (site path source lookup).locate d.place.span⟩
    show List.map _ (Option.toList _) = List.filterMap _ [_]
    rw [← Option.toList_map, hfile]
    rfl
  | _ => rfl

/-- The files that a page depends on are the master page that its first main directive names and behind it
the user controls that its directives register, each file once. They stay where they are when more files
are added, and these are then among them, each once again. -/
theorem read_files (path source : Text) (lookup : Lookup) :
    ∃ page, read path source lookup = .ok page ∧
      (∀ master, page.masterPage = some master ↔ ∃ d file,
        page.directives.find? (·.isMain) = some d ∧
        d.attribute? "MasterPageFile".toList = some file ∧ file.trim ≠ [] ∧
        master = Path.resolve path file) ∧
      page.files =
        firstFiles (page.masterPage.toList ++ page.directives.filterMap (registeredFile? path)) ∧
      (∀ master, page.masterPage = some master → page.files.head? = some master) ∧
      page.files.Pairwise Path.Differ ∧
      ∀ more : List Text,
        page.files <+: (more.foldl withFile page).files ∧
        (more.foldl withFile page).files.Pairwise Path.Differ ∧
        ∀ file ∈ more, ∃ listed ∈ (more.foldl withFile page).files,
          Path.components listed = Path.components file := by
  have hfiles : (ofSource path source lookup).files =
      firstFiles ((ofSource path source lookup).masterPage.toList ++
        (ofSource path source lookup).directives.filterMap (registeredFile? path)) := by
    have hmaster : (ofSource path source lookup).masterPage.toList.foldl addFile [] =
        (ofSource path source lookup).masterPage.toList := by
      cases (ofSource path source lookup).masterPage <;> rfl
    rw [← foldl_addFile_nil, List.foldl_append, hmaster, ← foldl_addFile_listed]
    exact congrArg (fun files => (files.foldl addFile []).foldl addFile
      (ofSource path source lookup).masterPage.toList) (map_file_registrations path source lookup)
  have hdistinct : (ofSource path source lookup).files.Pairwise Path.Differ := by
    rw [hfiles]
    exact firstFiles_pairwise _
  refine ⟨_, read_eq_ok path source lookup, fun master => masterOf?_eq_some, hfiles, ?_, hdistinct,
    fun more => ?_⟩
  · intro master hmaster
    rw [hfiles, hmaster]
    rfl
  · rw [files_foldl_withFile]
    refine ⟨?_, pairwise_foldl_addFile hdistinct more, fun file hfile => exists_mem_foldl_addFile _ hfile⟩
    rw [foldl_addFile]
    exact List.prefix_append _ _

end Page

end ServerPages
