import ServerPages.Markup.Tree
import ServerPages.Page.Visit

/-! Reading a page: its markup is parsed, its nodes become controls, and what was found is put
together. -/

namespace ServerPages

/-- The files of the user controls that were registered, each where it is registered first. -/
def Findings.files (found : Findings) : List Text := (found.registrations.map (·.file)).foldl addFile []

namespace Page

def masterOf? (path : Text) (directive : Option PageDirective) : Option Text := do
  let file ← (← directive).attribute? "MasterPageFile".toList
  guard (!file.trim.isEmpty)
  return Path.resolve path file

def errorsOf (site : Site) (problems : List Problem) : List PageError :=
  problems.map fun p => ⟨p.defect.message, site.locate p.span⟩

def assemble (site : Site) (root : List Control) (found : Findings) (problems : List Problem) :
    Page :=
  let directive := found.directives.find? (·.isMain)
  let master := masterOf? site.path directive
  { path := site.path
    masterPage := master
    directive
    directives := found.directives
    root
    errors := sortErrors (errorsOf site problems ++ found.errors)
    templates := found.templates
    scripts := found.scripts
    placeholders := found.placeholders
    files := found.files.foldl addFile master.toList }

/-- The page with some source. The path marks locations and is where relative references start. -/
def ofSource (path source : Text) (lookup : Lookup) : Page :=
  let site : Site := ⟨path, LineIndex.ofText source, lookup⟩
  let parsed := parse source
  let (controls, found) := site.visitAll .empty parsed.nodes
  assemble site (Site.gather false controls).1 found parsed.problems

/-- Literals of different files that would have to be merged in a page. -/
def mismatches (path source : Text) (lookup : Lookup) : List PathMismatch :=
  let site : Site := ⟨path, LineIndex.ofText source, lookup⟩
  let (controls, found) := site.visitAll .empty (parse source).nodes
  found.mismatches ++ (Site.gather false controls).2.mismatches

/-- Reads a page, unless literals of different files would have to be merged. -/
def read (path source : Text) (lookup : Lookup) : Except PathMismatch Page :=
  match mismatches path source lookup with
  | [] => .ok (ofSource path source lookup)
  | mismatch :: _ => .error mismatch

end Page

end ServerPages
