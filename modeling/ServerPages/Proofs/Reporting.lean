import Mathlib.Data.List.Perm.Basic
import ServerPages.Proofs.Position
import ServerPages.Proofs.Selecting
import ServerPages.Proofs.Utf8

/-! What a check reports. It shows the problems of all wanted files, each once: by the paths of the files,
and in one file by their starts. The summary counts them, and the check fails when there is one. All this
depends on the files alone, not on the order in which they are found. -/

namespace ServerPages

theorem sortErrors_sorted (errors : List PageError) :
    (sortErrors errors).Pairwise fun a b => a.location.start.le b.location.start = true := by
  refine List.pairwise_mergeSort ?trans ?total errors
  case trans => exact fun _ _ _ => Position.le_trans
  case total => exact fun _ _ => Position.le_total _ _

theorem sortErrors_perm (errors : List PageError) : (sortErrors errors).Perm errors :=
  List.mergeSort_perm ..

structure Diagnostic where
  path : Text
  source : Text
  error : PageError

namespace Diagnostic

/-- By the names that lead to the files; in one file by the starts of the problems. -/
def Precedes (a b : Diagnostic) : Prop :=
  a.path.split '/' < b.path.split '/' ∨
    a.path = b.path ∧ a.error.location.start.le b.error.location.start = true

/-- The problems of a file: those of its page, and one more when its bytes are not all text. -/
def ofFile (lookup : Lookup) (file : Text × Bytes) : List Diagnostic :=
  ((Page.ofSource file.1 (Utf8.lossy file.2) lookup).errors ++
    if (Utf8.text? file.2).isSome then [] else [FileReport.notText file.1 file.2]).map
      (⟨file.1, Utf8.lossy file.2, ·⟩)

def ofReport (r : FileReport) : List Diagnostic := r.page.errors.map (⟨r.path, r.source, ·⟩)

def print (format : OutputFormat) (shown : List Diagnostic) : Text :=
  match format with
  | .human => shown.flatMap fun d => d.error.human d.path
  | .humanVerbose => shown.flatMap fun d => d.error.verbose d.path d.source.lines
  | .json => (Json.Output.list (shown.map fun d => d.error.json d.path)).render ++ ['\n']
  | .machine => shown.flatMap fun d => d.error.machine d.path

theorem path_of_mem_ofReport {r : FileReport} {d : Diagnostic} (h : d ∈ ofReport r) :
    d.path = r.path := by
  obtain ⟨e, -, rfl⟩ := List.mem_map.1 h
  rfl

end Diagnostic

namespace FileReport

variable (lookup : Lookup) (path : Text) (bytes : Bytes)

theorem path_ofBytes : (ofBytes path bytes lookup).path = path := by
  rw [ofBytes]
  split <;> rfl

theorem ofBytes_sorted : (ofBytes path bytes lookup).page.errors.Pairwise
    fun a b => a.location.start.le b.location.start = true := by
  rw [ofBytes]
  split <;> exact sortErrors_sorted _

/-- A report on a file shows all problems of the file, each once. -/
theorem ofReport_ofBytes : (Diagnostic.ofReport (ofBytes path bytes lookup)).Perm
    (Diagnostic.ofFile lookup (path, bytes)) := by
  unfold Diagnostic.ofReport Diagnostic.ofFile
  rw [ofBytes]
  cases htext : Utf8.text? bytes with
  | some source =>
    rw [Utf8.lossy_eq htext]
    simp
  | none => exact (sortErrors_perm _).map _

theorem hasErrors_iff (r : FileReport) : r.page.hasErrors = !(Diagnostic.ofReport r).isEmpty := by
  rw [Page.hasErrors, Diagnostic.ofReport, List.isEmpty_map]

end FileReport

namespace Check

/-- What a check of some files comes to: it shows all their problems, in order, and a summary that counts
them. -/
structure Covers (options : Options) (lookup : Lookup) (files : List (Text × Bytes))
    (shown : List Diagnostic) (outcome : Outcome) : Prop where
  ordered : shown.Pairwise Diagnostic.Precedes
  complete : shown.Perm (files.flatMap (Diagnostic.ofFile lookup))
  output : outcome.output = Diagnostic.print options.output shown ++
    if showsSummary options.output then outcome.summary.text ++ ['\n'] else []
  checked : outcome.summary.files = files.length
  failedFiles : outcome.summary.failedFiles =
    files.countP fun file => !(Diagnostic.ofFile lookup file).isEmpty
  errors : outcome.summary.errors = shown.length
  failed : outcome.summary.failed = true ↔ shown ≠ []

theorem flatMap_filter_hasErrors {show? : FileReport → Text}
    (hnone : ∀ r, r.page.errors = [] → show? r = []) (reports : List FileReport) :
    (reports.filter (·.page.hasErrors)).flatMap show? = reports.flatMap show? := by
  induction reports with
  | nil => rfl
  | cons r reports ih =>
    rw [List.filter_cons, List.flatMap_cons, ← ih]
    split
    · rfl
    · next hno =>
      have hempty : r.page.errors = [] := by simpa [Page.hasErrors] using hno
      rw [hnone r hempty, List.nil_append]

/-- The problems of all files are shown; files without one add nothing. -/
theorem render_eq (format : OutputFormat) (reports : List FileReport) :
    render format reports = Diagnostic.print format (reports.flatMap Diagnostic.ofReport) := by
  have hnone (r : FileReport) (hempty : r.page.errors = []) :
      format ≠ .json → format.render r.path r.source r.page.errors = [] := by
    rw [hempty]
    cases format <;> simp [OutputFormat.render]
  cases format with
  | json =>
    simp only [render, Diagnostic.print, List.map_flatMap, Diagnostic.ofReport, List.map_map]
    rfl
  | _ =>
    refine (flatMap_filter_hasErrors (fun r hempty => hnone r hempty (by decide)) reports).trans ?_
    simp only [Diagnostic.print, List.flatMap_assoc, Diagnostic.ofReport, List.flatMap_map]
    rfl

section Files

variable {options : Options} {lookup : Lookup} {files sorted : List (Text × Bytes)}

abbrev reportsOn (lookup : Lookup) (files : List (Text × Bytes)) : List FileReport :=
  files.map fun file => .ofBytes file.1 file.2 lookup

/-- Files in the order of their paths have their problems in order. -/
theorem ordered_reportsOn (hsorted : sorted.Pairwise fun a b => a.1.split '/' < b.1.split '/') :
    ((reportsOn lookup sorted).flatMap Diagnostic.ofReport).Pairwise Diagnostic.Precedes := by
  rw [List.pairwise_flatMap, List.pairwise_map]
  refine ⟨fun r hr => ?_, hsorted.imp fun {a b} hab => ?_⟩
  · obtain ⟨file, -, rfl⟩ := List.mem_map.1 hr
    rw [Diagnostic.ofReport, List.pairwise_map]
    exact (FileReport.ofBytes_sorted lookup file.1 file.2).imp fun hle => .inr ⟨rfl, hle⟩
  · intro d hd e he
    rw [Diagnostic.Precedes, Diagnostic.path_of_mem_ofReport hd, Diagnostic.path_of_mem_ofReport he,
      FileReport.path_ofBytes, FileReport.path_ofBytes]
    exact .inl hab

theorem outcome_covers (hperm : sorted.Perm files)
    (hsorted : sorted.Pairwise fun a b => a.1.split '/' < b.1.split '/') :
    Covers options lookup files ((reportsOn lookup sorted).flatMap Diagnostic.ofReport)
      (outcome options (reportsOn lookup sorted)) where
  ordered := ordered_reportsOn hsorted
  complete := by
    rw [List.flatMap_map]
    exact (List.Perm.flatMap_left _ fun file _ =>
      FileReport.ofReport_ofBytes lookup file.1 file.2).trans (hperm.flatMap_right _)
  output := by rw [outcome, render_eq]
  checked := by
    show (reportsOn lookup sorted).length = _
    rw [List.length_map, hperm.length_eq]
  failedFiles := by
    show ((reportsOn lookup sorted).filter (·.page.hasErrors)).length = _
    rw [← List.countP_eq_length_filter, List.countP_map, ← hperm.countP_eq]
    refine List.countP_congr fun file _ => ?_
    rw [Function.comp, FileReport.hasErrors_iff,
      (FileReport.ofReport_ofBytes lookup file.1 file.2).isEmpty_eq]
  errors := by
    show ((reportsOn lookup sorted).flatMap (·.page.errors)).length = _
    simp only [List.length_flatMap, Diagnostic.ofReport, List.length_map]
  failed := by
    show decide (((reportsOn lookup sorted).flatMap (·.page.errors)).length > 0) = true ↔ _
    rw [decide_eq_true_iff, ← List.length_pos_iff]
    simp only [List.length_flatMap, Diagnostic.ofReport, List.length_map, gt_iff_lt]

end Files

/-- When all files are read, there is a report on each. -/
theorem reports_eq {tree : FileTree} {root : Text} {lookup : Lookup} {files : List (Text × Bytes)}
    (hread : ∀ file ∈ files, tree.read (Path.join root file.1) = .ok file.2) :
    reports tree root lookup (files.map Prod.fst) = .ok (reportsOn lookup files) := by
  rw [reports]
  induction files with
  | nil => rfl
  | cons file files ih =>
    obtain ⟨hfile, hfiles⟩ := List.forall_mem_cons.1 hread
    rw [List.map_cons, List.mapM_cons, hfile, ih hfiles]
    rfl

/-- A check does not depend on the order in which files are found, and unless the workspace is a file or
the configuration is wrong it reports the problems of all wanted files. -/
theorem run_reports {tree : FileTree} {files : List (Place × Bytes)} (hsound : tree.Sound)
    (hfiles : files.Perm tree.files) (current : Text) (options : Options) :
    run { tree with files } current options = run tree current options ∧
    ∀ config ignored, (∀ content, tree.read (workspace options current) ≠ .ok content) →
      loadConfig options (configPath options (workspace options current))
        (tree.read (configPath options (workspace options current))) = .ok config →
      ignoreSet options config = .ok ignored →
      ∃ outcome shown, run tree current options = .ok outcome ∧
        Covers options (Registered.get? config.registry)
          (wantedIn tree (workspace options current) config.fileExtensions ignored) shown outcome := by
  constructor
  · simp only [run, FileTree.read_of_perm hsound hfiles, reports,
      select_of_perm hsound (FileTree.filesIn_perm hsound hfiles _)]
  · intro config ignored hroot hconfig hignored
    have hperm := List.mergeSort_perm
      (wantedIn tree (workspace options current) config.fileExtensions ignored) byPath
    have hread : ∀ file ∈ (wantedIn tree (workspace options current) config.fileExtensions ignored
        ).mergeSort byPath, tree.read (Path.join (workspace options current) file.1) = .ok file.2 :=
      fun file hfile => hsound.read_found hroot (List.mem_of_mem_filter (hperm.mem_iff.1 hfile))
    refine ⟨_, _, ?_, outcome_covers hperm (wantedIn_increasing hsound hroot)⟩
    simp only [run, hconfig, hignored, select_filesIn hsound, reports_eq hread, bind, Except.bind, pure,
      Except.pure]

/-- Code that does not end, and in a folder below, bytes that are no text. -/
def twoPages : FileTree where
  files := [(["w".toList, "a.aspx".toList], [0x3C, 0x25]),
    (["w".toList, "a".toList, "b.ASPX".toList], [0xFF])]
  folders := []

def inFolderW : Options := { workspace := "/w".toList }

/-- Each of the files has one problem, in whichever order they are found. -/
theorem run_reports_twoPages :
    ∃ outcome, run twoPages "/".toList inFolderW = .ok outcome ∧
      run { twoPages with files := twoPages.files.reverse } "/".toList inFolderW = .ok outcome ∧
      outcome.summary.files = 2 ∧ outcome.summary.failedFiles = 2 ∧ outcome.summary.errors = 2 ∧
      outcome.summary.failed = true := by
  have hsound : twoPages.Sound := ⟨by decide +kernel, by decide +kernel, by decide +kernel⟩
  have hfolder : twoPages.read (workspace inFolderW "/".toList) = .error .isFolder := rfl
  obtain ⟨ignored, hignored, hwanted⟩ : ∃ ignored, ignoreSet inFolderW .default = .ok ignored ∧
      wantedIn twoPages (workspace inFolderW "/".toList) Config.default.fileExtensions ignored =
        [("a.aspx".toList, [0x3C, 0x25]), ("a/b.ASPX".toList, [0xFF])] :=
    ⟨_, rfl, by decide +kernel⟩
  obtain ⟨hsame, hreports⟩ := run_reports hsound (List.reverse_perm _) "/".toList inFolderW
  obtain ⟨outcome, shown, hrun, hcovers⟩ := hreports .default ignored
    (fun content hcontent => nomatch hfolder.symm.trans hcontent) rfl hignored
  rw [hwanted] at hcovers
  have hlength : shown.length = 2 := hcovers.complete.length_eq.trans (by decide +kernel)
  refine ⟨outcome, hrun, hsame.trans hrun, hcovers.checked,
    hcovers.failedFiles.trans (by decide +kernel), hcovers.errors.trans hlength, ?_⟩
  exact hcovers.failed.2 (List.ne_nil_of_length_pos (by omega))

end Check

end ServerPages
