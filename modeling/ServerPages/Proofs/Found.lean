import ServerPages.Check.FileTree
import ServerPages.Proofs.PathOrder

/-! Files that are found. In a sound tree a file that is found below a folder is read, by its path from
there, with its own content. What a tree says of its files does not depend on the order in which it lists
them. -/

namespace ServerPages.FileTree

/-- Places are made of names, no two files have one place, and no file is below another. -/
structure Sound (tree : FileTree) : Prop where
  names : ∀ file ∈ tree.files, ∀ name ∈ file.1, Path.IsName name
  nodup : (tree.files.map Prod.fst).Nodup
  leaves : ∀ file ∈ tree.files, ∀ other ∈ tree.files, ∀ rest ∈ below? file.1 other.1, rest = []

/-- The files in a folder and the folders below it, by their paths from there, with their contents. -/
def contentsIn (tree : FileTree) (path : Text) : List (Text × Bytes) :=
  match tree.place path with
  | .error _ => []
  | .ok folder => tree.files.filterMap fun (place, content) =>
      (below? folder place).map fun rest => (Path.ofNames rest, content)

theorem below?_eq_some {folder place rest : Place} :
    below? folder place = some rest ↔ place = folder ++ rest := by
  induction folder generalizing place with
  | nil => simp [below?]
  | cons a folder ih =>
    cases place with
    | nil => simp [below?]
    | cons b place =>
      rw [below?, List.cons_append, List.cons_eq_cons]
      split
      · next hab => simp [ih, hab]
      · next hab => simp [Ne.symm hab]

theorem map_fst_contentsIn (tree : FileTree) (path : Text) :
    (tree.contentsIn path).map Prod.fst = tree.filesIn path := by
  unfold contentsIn filesIn
  cases tree.place path with
  | error => rfl
  | ok folder =>
    rw [List.map_filterMap]
    exact List.filterMap_congr fun file _ => by rw [Option.map_map]; rfl

variable {tree : FileTree} {place folder names : Place} {content : Bytes}

theorem mem_contentsIn {path : Text} {file : Text × Bytes} :
    file ∈ tree.contentsIn path ↔ ∃ folder names, tree.place path = .ok folder ∧
      (folder ++ names, file.2) ∈ tree.files ∧ Path.ofNames names = file.1 := by
  unfold contentsIn
  cases tree.place path with
  | error => simp
  | ok folder =>
    simp only [List.mem_filterMap, Option.map_eq_some_iff, below?_eq_some, Except.ok.injEq]
    constructor
    · rintro ⟨⟨_, content⟩, hfile, names, rfl, rfl⟩
      exact ⟨folder, names, rfl, hfile, rfl⟩
    · rintro ⟨_, names, rfl, hfile, hpath⟩
      exact ⟨_, hfile, names, rfl, Prod.ext hpath rfl⟩

section Reading

theorem follow_append (place : Place) (a b : List Text) :
    tree.follow place (a ++ b) = tree.follow place a >>= (tree.follow · b) := by
  induction a generalizing place with
  | nil => rfl
  | cons segment a ih =>
    simp only [List.cons_append, follow]
    split
    · rfl
    · rfl
    · exact ih _

theorem place_slash (front path : Text) :
    tree.place (front ++ '/' :: path) = tree.place front >>= (tree.follow · (path.split '/')) := by
  rw [FileTree.place, Text.split_append_cons, follow_append]
  rfl

theorem eq_of_follow_empty (h : tree.follow place [[]] = .ok folder) : folder = place := by
  simp only [follow] at h
  split at h
  · cases h
  · cases h
  · simpa [enter] using h.symm

/-- Names taken from a folder lead on from where the path of the folder leads. -/
theorem place_join {root : Text} (hroot : tree.place root = .ok folder) (hne : names ≠ [])
    (hnames : ∀ name ∈ names, Path.IsName name) :
    tree.place (Path.join root (Path.ofNames names)) = tree.follow folder names := by
  have hrelative : Path.isAbsolute (Path.ofNames names) = false := by
    simpa [Path.isAbsolute] using Path.head?_ofNames hnames
  have hslash {front : Text} (hfront : tree.place front = .ok folder) :
      tree.place (front ++ '/' :: Path.ofNames names) = tree.follow folder names := by
    rw [place_slash, hfront, Path.split_ofNames hne hnames]
    rfl
  -- an empty path leads to the root; a slash at the end is the one before the names
  unfold Path.join
  rw [hrelative, Bool.false_or]
  split
  · next hempty =>
    rw [List.isEmpty_iff.1 hempty] at hroot
    rw [eq_of_follow_empty hroot, FileTree.place, Path.split_ofNames hne hnames]
  · split
    · next hlast =>
      obtain ⟨front, rfl⟩ := List.getLast?_eq_some_iff.1 (beq_iff_eq.1 hlast)
      rw [place_slash] at hroot
      cases hfront : tree.place front with
      | error fault => rw [hfront] at hroot; cases hroot
      | ok middle =>
        rw [hfront] at hroot
        rw [List.append_assoc]
        exact hslash (hfront.trans (congrArg _ (eq_of_follow_empty hroot).symm))
    · exact hslash hroot

theorem read_of_entry {path : Text} (hplace : tree.place path = .ok place)
    (hentry : tree.entry? place = some (.file content)) : tree.read path = .ok content := by
  simp only [read, hplace, bind, Except.bind, hentry]

end Reading

namespace Sound

variable (hsound : tree.Sound)
include hsound

theorem lookup_eq_some : tree.files.lookup place = some content ↔ (place, content) ∈ tree.files := by
  rw [List.lookup_eq_some_iff]
  constructor
  · rintro ⟨before, after, hfiles, -⟩
    rw [hfiles]
    exact List.mem_append_right _ (List.mem_cons_self ..)
  · intro hfile
    obtain ⟨before, after, hfiles⟩ := List.append_of_mem hfile
    refine ⟨before, after, hfiles, fun file hbefore => bne_iff_ne.2 ?_⟩
    have hnodup := hsound.nodup
    rw [hfiles, List.map_append, List.nodup_append] at hnodup
    exact (hnodup.2.2 _ (List.mem_map_of_mem hbefore) _ (List.mem_cons_self ..)).symm

theorem entry?_file (hfile : (place, content) ∈ tree.files) :
    tree.entry? place = some (.file content) := by
  unfold entry?
  rw [hsound.lookup_eq_some.2 hfile]

theorem entry?_folder (hfile : (folder ++ names, content) ∈ tree.files) (hne : names ≠ []) :
    tree.entry? folder = some .folder := by
  have hbelow : below? folder (folder ++ names) = some names := below?_eq_some.2 rfl
  have hlookup : tree.files.lookup folder = none := by
    refine Option.eq_none_iff_forall_ne_some.2 fun other hother => hne ?_
    exact hsound.leaves _ (hsound.lookup_eq_some.1 hother) _ hfile _ hbelow
  have hfolder : tree.isFolder folder = true := by
    rw [isFolder, Bool.or_eq_true]
    refine .inr (List.any_eq_true.2 ⟨folder ++ names, ?_, by rw [hbelow]; rfl⟩)
    exact List.mem_append_right _ (List.mem_map_of_mem hfile)
  unfold entry?
  rw [hlookup]
  exact if_pos hfolder

theorem isName (hfile : (folder ++ names, content) ∈ tree.files) :
    ∀ name ∈ names, Path.IsName name :=
  fun name hname => hsound.names _ hfile name (List.mem_append_right _ hname)

/-- The names on the way to a file lead there. -/
theorem follow_eq (hfile : (folder ++ names, content) ∈ tree.files) :
    tree.follow folder names = .ok (folder ++ names) := by
  induction names generalizing folder with
  | nil => rw [List.append_nil]; rfl
  | cons name names ih =>
    obtain ⟨hname, -, hcurrent, hparent⟩ := hsound.isName hfile name (List.mem_cons_self ..)
    have henter : enter folder name = folder ++ [name] := by simp [enter, hname, hcurrent, hparent]
    have hentry := hsound.entry?_folder hfile (List.cons_ne_nil _ _)
    rw [List.append_cons] at hfile ⊢
    simp only [follow, hentry, henter]
    exact ih hfile

/-- Where a path leads to no file, a file that is found there has a name. -/
theorem ne_nil {root : Text} (hroot : ∀ content, tree.read root ≠ .ok content)
    (hplace : tree.place root = .ok folder) (hfile : (folder ++ names, content) ∈ tree.files) :
    names ≠ [] := by
  rintro rfl
  rw [List.append_nil] at hfile
  exact hroot content (read_of_entry hplace (hsound.entry?_file hfile))

/-- A file that is found is read with its own content. -/
theorem read_found {root : Text} {file : Text × Bytes}
    (hroot : ∀ content, tree.read root ≠ .ok content) (hfound : file ∈ tree.contentsIn root) :
    tree.read (Path.join root file.1) = .ok file.2 := by
  obtain ⟨folder, names, hplace, hfile, hpath⟩ := mem_contentsIn.1 hfound
  rw [← hpath]
  refine read_of_entry ?_ (hsound.entry?_file hfile)
  rw [place_join hplace (hsound.ne_nil hroot hplace hfile) (hsound.isName hfile),
    hsound.follow_eq hfile]

theorem nodup_paths (path : Text) : ((tree.contentsIn path).map Prod.fst).Nodup := by
  unfold contentsIn
  cases tree.place path with
  | error => exact List.nodup_nil
  | ok folder =>
    rw [List.nodup_iff_pairwise_ne, List.pairwise_map, List.pairwise_filterMap]
    have hplaces := List.pairwise_map.1 hsound.nodup
    refine hplaces.imp_of_mem fun {first second} hfirst hsecond hne => ?_
    simp only [Option.map_eq_some_iff, below?_eq_some]
    rintro _ ⟨names, hnames, rfl⟩ _ ⟨others, hothers, rfl⟩ heq
    obtain ⟨_, content⟩ := first
    obtain ⟨_, other⟩ := second
    subst hnames hothers
    have hsame := Path.ofNames_inj (hsound.isName hfirst) (hsound.isName hsecond) heq
    exact hne (congrArg (folder ++ ·) hsame)

end Sound

section Order

variable {files : List (Place × Bytes)}

theorem Sound.of_perm (hsound : tree.Sound) (hfiles : files.Perm tree.files) :
    ({ tree with files } : FileTree).Sound where
  names file hfile := hsound.names file (hfiles.mem_iff.1 hfile)
  nodup := (hfiles.map _).nodup_iff.2 hsound.nodup
  leaves file hfile other hother :=
    hsound.leaves file (hfiles.mem_iff.1 hfile) other (hfiles.mem_iff.1 hother)

theorem entry?_of_perm (hsound : tree.Sound) (hfiles : files.Perm tree.files) (place : Place) :
    entry? { tree with files } place = tree.entry? place := by
  have hlookup : files.lookup place = tree.files.lookup place := by
    refine Option.ext fun content => ?_
    rw [hsound.lookup_eq_some, (hsound.of_perm hfiles).lookup_eq_some]
    exact hfiles.mem_iff
  have hfolder : ({ tree with files } : FileTree).isFolder place = tree.isFolder place := by
    rw [isFolder, isFolder, ((hfiles.map Prod.fst).append_left tree.folders).any_eq]
  unfold entry?
  rw [hlookup, hfolder]

theorem follow_of_perm (hsound : tree.Sound) (hfiles : files.Perm tree.files) (place : Place)
    (segments : List Text) :
    ({ tree with files } : FileTree).follow place segments = tree.follow place segments := by
  induction segments generalizing place with
  | nil => rfl
  | cons segment segments ih => simp only [follow, entry?_of_perm hsound hfiles, ih]

theorem read_of_perm (hsound : tree.Sound) (hfiles : files.Perm tree.files) (path : Text) :
    ({ tree with files } : FileTree).read path = tree.read path := by
  simp only [read, FileTree.place, follow_of_perm hsound hfiles, entry?_of_perm hsound hfiles]

/-- The same files are found, if in another order. -/
theorem filesIn_perm (hsound : tree.Sound) (hfiles : files.Perm tree.files) (path : Text) :
    (({ tree with files } : FileTree).filesIn path).Perm (tree.filesIn path) := by
  simp only [filesIn, FileTree.place, follow_of_perm hsound hfiles]
  split
  · exact .refl _
  · exact hfiles.filterMap _

end Order

end ServerPages.FileTree
