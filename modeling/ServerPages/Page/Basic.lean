import ServerPages.Control.Basic
import ServerPages.Path.Basic

/-! A page after its controls are resolved: the control tree, what was collected beside it, the
problems in source order and the files the page depends on. -/

namespace ServerPages

structure PageError where
  message : Text
  location : Location
  deriving DecidableEq, Repr

structure PageDirective where
  name : Text
  attributes : List (Text × Text)
  location : Location
  deriving DecidableEq, Repr

namespace PageDirective

def isNamed (d : PageDirective) (name : Text) : Bool := d.name.same name

/-- the text of the first attribute with a name, up to ASCII case -/
def attribute? (d : PageDirective) (name : Text) : Option Text :=
  (d.attributes.find? (·.1.same name)).map Prod.snd

theorem attribute?_eq_some_iff {d : PageDirective} {name text : Text} :
    d.attribute? name = some text ↔ ∃ front a back, d.attributes = front ++ a :: back ∧
      (∀ b ∈ front, b.1.same name = false) ∧ a.1.same name = true ∧ a.2 = text := by
  rw [attribute?, map_find?_eq_some_iff]

def isMain (d : PageDirective) : Bool :=
  ["Page", "Control", "Master"].any fun name => d.isNamed name.toList

end PageDirective

structure Template where
  id : Option Text
  placeholder : Text
  controls : List Control
  location : Location
  deriving Repr

structure ScriptLine where
  text : Text
  location : Location
  deriving DecidableEq, Repr

structure Script where
  lines : List ScriptLine
  location : Location
  deriving DecidableEq, Repr

def Script.text (s : Script) : Text := Text.join ['\n'] (s.lines.map (·.text))

structure Page where
  path : Text
  /-- the master page that the main directive names -/
  masterPage : Option Text
  /-- the first directive that describes the page itself -/
  directive : Option PageDirective
  directives : List PageDirective
  root : List Control
  /-- problems by their start -/
  errors : List PageError
  templates : List Template
  scripts : List Script
  /-- ids of the content placeholders the page has -/
  placeholders : List Text
  /-- the files the page depends on, the master page first -/
  files : List Text
  deriving Repr

/-- A file joins a list unless it is there already. -/
def addFile (files : List Text) (file : Text) : List Text :=
  if files.any (Path.same file) then files else files ++ [file]

namespace Page

def hasErrors (page : Page) : Bool := !page.errors.isEmpty

def withFile (page : Page) (file : Text) : Page := { page with files := addFile page.files file }

end Page

/-- The type of the user control in a file: the file name in lower case, dots as underscores. -/
def userControlType (path : Text) : QualifiedName :=
  let name := (Path.fileName? path).getD path
  ⟨"ASP".toList, name.lower.map fun c => if c = '.' then '_' else c⟩

/-- problems in the order of their starts; those with one start keep their order -/
def sortErrors (errors : List PageError) : List PageError :=
  errors.mergeSort fun a b => a.location.start.le b.location.start

end ServerPages
