import Mathlib.Data.List.Infix
import ServerPages.Check.Run
import ServerPages.Proofs.Found
import ServerPages.Proofs.Reading

/-! Which files a check selects, and in which order. Selected are the files whose names end with an
extension and that nothing leaves out, each once, by their paths. The paths that are found are paths of
names, on which the order of paths is linear: so the order in which they were found does not matter. -/

namespace ServerPages

theorem Text.isSome_before? {t stop : Text} : (t.before? stop).isSome = true ↔ stop <:+ t := by
  rw [Option.isSome_iff_exists]
  exact exists_congr fun front => before?_eq_some_iff.trans eq_comm

namespace Check

variable {tree : FileTree} {root : Text} {extensions : List Text} {ignored : IgnoreSet}

/-- Of the files that are found those are wanted whose names end with one of the extensions, up to ASCII
case, and that no pattern matches. -/
def Wanted (extensions : List Text) (ignored : IgnoreSet) (path : Text) : Prop :=
  (∃ extension ∈ extensions, extension.lower <:+ ((path.split '/').getLastD []).lower) ∧
    ignored.contains path = false

instance : DecidablePred (Wanted extensions ignored) :=
  fun path => inferInstanceAs
    (Decidable ((∃ extension ∈ extensions, _) ∧ ignored.contains path = false))

def wantedIn (tree : FileTree) (root : Text) (extensions : List Text) (ignored : IgnoreSet) :
    List (Text × Bytes) :=
  (tree.contentsIn root).filter fun file => Wanted extensions ignored file.1

/-- The order in which files are checked. -/
def byPath (a b : Text × Bytes) : Bool := Path.le a.1 b.1

theorem name_ofNames {names : List Text} (h : ∀ name ∈ names, Path.IsName name) :
    (Path.fileName? (Path.ofNames names)).getD [] =
      ((Path.ofNames names).split '/').getLastD [] := by
  rw [Path.fileName?_ofNames h]
  rcases eq_or_ne names [] with rfl | hne
  · rfl
  · rw [Path.split_ofNames hne h, List.getLastD_eq_getLast?]

theorem isPage_ofNames {names : List Text} (h : ∀ name ∈ names, Path.IsName name) :
    (isPage extensions (Path.ofNames names) && !ignored.contains (Path.ofNames names)) = true ↔
      Wanted extensions ignored (Path.ofNames names) := by
  rw [Bool.and_eq_true, Bool.not_eq_true', isPage, List.any_eq_true, name_ofNames h]
  simp only [Text.isSome_before?]
  exact Iff.rfl

theorem select_filesIn (hsound : tree.Sound) :
    select extensions ignored (tree.filesIn root) =
      ((wantedIn tree root extensions ignored).mergeSort byPath).map Prod.fst := by
  have hmap : ((wantedIn tree root extensions ignored).mergeSort byPath).map Prod.fst =
      ((wantedIn tree root extensions ignored).map Prod.fst).mergeSort Path.le :=
    List.map_mergeSort fun _ _ _ _ => rfl
  rw [hmap, select, ← tree.map_fst_contentsIn, List.filter_map, wantedIn]
  congr 2
  refine List.filter_congr fun file hfile => ?_
  obtain ⟨folder, names, -, hplace, hpath⟩ := FileTree.mem_contentsIn.1 hfile
  rw [Bool.eq_iff_iff, decide_eq_true_iff, Function.comp, ← hpath]
  exact isPage_ofNames (hsound.isName hplace)

/-- What is selected does not depend on the order in which files were found. -/
theorem select_of_perm (hsound : tree.Sound) {found : List Text}
    (hfound : found.Perm (tree.filesIn root)) :
    select extensions ignored found = select extensions ignored (tree.filesIn root) := by
  have hsorted (paths : List Text) : (select extensions ignored paths).Pairwise (Path.le · ·) :=
    List.pairwise_mergeSort Path.le_trans Path.le_total _
  have hperm : (select extensions ignored found).Perm
      (select extensions ignored (tree.filesIn root)) :=
    (List.mergeSort_perm _ _).trans ((hfound.filter _).trans (List.mergeSort_perm _ _).symm)
  have hnames : ∀ path ∈ select extensions ignored (tree.filesIn root),
      ∃ names, (∀ name ∈ names, Path.IsName name) ∧ Path.ofNames names = path := by
    intro path hpath
    have hpath := List.mem_of_mem_filter ((List.mergeSort_perm _ _).mem_iff.1 hpath)
    rw [← tree.map_fst_contentsIn] at hpath
    obtain ⟨file, hfile, rfl⟩ := List.mem_map.1 hpath
    obtain ⟨folder, names, -, hplace, hpath⟩ := FileTree.mem_contentsIn.1 hfile
    exact ⟨names, hsound.isName hplace, hpath⟩
  -- two sorted lists of the same paths are one list if the order tells these paths apart
  refine List.Perm.eq_of_pairwise ?_ (hsorted found) (hsorted _) hperm
  intro a b ha hb hab hba
  obtain ⟨as, has, rfl⟩ := hnames a (hperm.mem_iff.1 ha)
  obtain ⟨bs, hbs, rfl⟩ := hnames b hb
  rw [Path.le_ofNames has hbs] at hab
  rw [Path.le_ofNames hbs has] at hba
  rw [le_antisymm hab hba]

/-- The files are checked in strictly increasing order of their paths, compared name by name. -/
theorem wantedIn_increasing (hsound : tree.Sound) (hroot : ∀ content, tree.read root ≠ .ok content) :
    ((wantedIn tree root extensions ignored).mergeSort byPath).Pairwise
      fun a b => a.1.split '/' < b.1.split '/' := by
  have hperm := List.mergeSort_perm (wantedIn tree root extensions ignored) byPath
  have hnodup : ((wantedIn tree root extensions ignored).map Prod.fst).Nodup :=
    (hsound.nodup_paths root).sublist (List.filter_sublist.map _)
  have hne := List.pairwise_map.1 ((hperm.map Prod.fst).nodup_iff.2 hnodup)
  have hsorted : ((wantedIn tree root extensions ignored).mergeSort byPath).Pairwise (byPath · ·) :=
    List.pairwise_mergeSort (fun a b c => Path.le_trans a.1 b.1 c.1)
      (fun a b => Path.le_total a.1 b.1) _
  refine (hsorted.and hne).imp_of_mem fun {a b} ha hb hab => ?_
  obtain ⟨hle, hne⟩ := hab
  obtain ⟨folder, as, hfolder, has, hpath⟩ :=
    FileTree.mem_contentsIn.1 (List.mem_of_mem_filter (hperm.mem_iff.1 ha))
  obtain ⟨folder', bs, hfolder', hbs, hpath'⟩ :=
    FileTree.mem_contentsIn.1 (List.mem_of_mem_filter (hperm.mem_iff.1 hb))
  rw [byPath] at hle
  rw [← hpath, ← hpath'] at hle hne ⊢
  have hnames := hsound.isName has
  have hnames' := hsound.isName hbs
  rw [Path.split_ofNames (hsound.ne_nil hroot hfolder has) hnames,
    Path.split_ofNames (hsound.ne_nil hroot hfolder' hbs) hnames']
  exact lt_of_le_of_ne ((Path.le_ofNames hnames hnames').1 hle) fun heq => hne (congrArg _ heq)

end Check

end ServerPages
