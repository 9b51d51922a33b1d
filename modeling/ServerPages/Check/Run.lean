import ServerPages.Check.FileTree
import ServerPages.Check.Report
import ServerPages.Config.Basic
import ServerPages.Glob.Match
import ServerPages.Page.Outline
import ServerPages.Page.Parse

/-! A check: the configuration is loaded, the pages of the workspace are found and read, and what is
wrong with them is reported. -/

namespace ServerPages

inductive Failure where
  | glob (e : Glob.Invalid)
  | configRead (path : Text) (fault : ReadFault)
  | configParse (path : Text) (fault : Json.Fault)
  | pageRead (path : Text) (fault : ReadFault)
  deriving Repr

def Failure.message : Failure → Text
  | .glob e => e.message
  | .configRead path fault | .pageRead path fault =>
    "failed to read ".toList ++ path ++ ": ".toList ++ fault.message
  | .configParse path _ => "invalid configuration in ".toList ++ path

structure FileReport where
  path : Text
  source : Text
  page : Page
  deriving Repr

namespace FileReport

/-- The problem of a file whose bytes are not all text: it is where the text ends. -/
def notText (path : Text) (bytes : Bytes) : PageError :=
  let position := Position.after (Utf8.valid bytes)
  ⟨"file is not valid UTF-8".toList, ⟨path, position, position⟩⟩

/-- The report on the content of a file. What is not text is replaced, and is a problem. -/
def ofBytes (path : Text) (bytes : Bytes) (lookup : Lookup) : FileReport :=
  match Utf8.text? bytes with
  | some source => ⟨path, source, Page.ofSource path source lookup⟩
  | none =>
    let source := Utf8.lossy bytes
    let page := Page.ofSource path source lookup
    ⟨path, source, { page with errors := sortErrors (page.errors ++ [notText path bytes]) }⟩

end FileReport

structure Outcome where
  output : Text
  /-- what is shown beside it -/
  notes : Text
  summary : Summary
  deriving DecidableEq, Repr

namespace Check

def configName : Text := "aspx.config.json".toList

def workspace (options : Options) (current : Text) : Text := Path.join current options.workspace

def configPath (options : Options) (root : Text) : Text :=
  Path.join root (options.config.getD configName)

/-- The configuration in a file that was read. A file that was not asked for may be missing. -/
def loadConfig (options : Options) (path : Text) (content : Except ReadFault Bytes) :
    Except Failure Config :=
  match content with
  | .error fault =>
    if options.config.isNone ∧ (fault = .missing ∨ fault = .notFolder) then .ok .default
    else .error (.configRead path fault)
  | .ok bytes =>
    match Utf8.text? bytes with
    | none => .error (.configRead path .notText)
    | some text =>
      match Config.ofText text with
      | .ok config => .ok config
      | .error fault => .error (.configParse path fault)

def ignoreSet (options : Options) (config : Config) : Except Failure IgnoreSet :=
  match IgnoreSet.ofPatterns (config.exclude ++ options.ignore) with
  | .ok set => .ok set
  | .error e => .error (.glob e)

def isPage (extensions : List Text) (path : Text) : Bool :=
  let name := ((Path.fileName? path).getD []).lower
  extensions.any fun extension => (name.before? extension.lower).isSome

/-- The pages among the files that were found, in the order of their paths. -/
def select (extensions : List Text) (ignored : IgnoreSet) (found : List Text) : List Text :=
  (found.filter fun path => isPage extensions path && !ignored.contains path).mergeSort Path.le

def reportOn (lookup : Lookup) (path : Text) (content : Except ReadFault Bytes) :
    Except Failure FileReport :=
  match content with
  | .ok bytes => .ok (.ofBytes path bytes lookup)
  | .error fault => .error (.pageRead path fault)

def reports (tree : FileTree) (root : Text) (lookup : Lookup) (paths : List Text) :
    Except Failure (List FileReport) :=
  paths.mapM fun path => reportOn lookup path (tree.read (Path.join root path))

def summaryOf (reports : List FileReport) : Summary :=
  ⟨reports.length, (reports.filter (·.page.hasErrors)).length,
    (reports.flatMap (·.page.errors)).length⟩

def outlines (reports : List FileReport) : Text :=
  reports.flatMap fun r =>
    "=== Tree for ".toList ++ r.path ++ " ===\n".toList ++ r.page.outline ++ ['\n']

/-- The problems of all files. In JSON they are one list. -/
def render (format : OutputFormat) (reports : List FileReport) : Text :=
  match format with
  | .json =>
    (Json.Output.list (reports.flatMap fun r => r.page.errors.map (·.json r.path))).render ++ ['\n']
  | _ =>
    (reports.filter (·.page.hasErrors)).flatMap fun r => format.render r.path r.source r.page.errors

def showsSummary : OutputFormat → Bool
  | .human | .humanVerbose => true
  | .json | .machine => false

def outcome (options : Options) (reports : List FileReport) : Outcome :=
  let summary := summaryOf reports
  { output := render options.output reports ++
      (if showsSummary options.output then summary.text ++ ['\n'] else [])
    notes := (if options.emitTree then outlines reports else []) ++
      (if options.timings then "=== aspx-check timings ===\n".toList else [])
    summary }

/-- A check of a workspace in a tree of files, from the folder `current`. -/
def run (tree : FileTree) (current : Text) (options : Options) : Except Failure Outcome := do
  let root := workspace options current
  let configFile := configPath options root
  let config ← loadConfig options configFile (tree.read configFile)
  let ignored ← ignoreSet options config
  let pages := select config.fileExtensions ignored (tree.filesIn root)
  let reports ← reports tree root (Registered.get? config.registry) pages
  return outcome options reports

end Check

end ServerPages
