import ServerPages.Path.Basic
import ServerPages.Text.Utf8

/-! Files and folders. A folder exists when something is in it or when it is listed; a path is
followed from the root, segment by segment, through folders that exist. -/

namespace ServerPages

inductive ReadFault where
  | missing
  | notFolder
  | isFolder
  | notText
  deriving DecidableEq, Repr

def ReadFault.message : ReadFault → Text
  | .missing => "No such file or directory (os error 2)".toList
  | .notFolder => "Not a directory (os error 20)".toList
  | .isFolder => "Is a directory (os error 21)".toList
  | .notText => "stream did not contain valid UTF-8".toList

/-- The names on the way from the root. -/
abbrev Place := List Text

inductive Entry where
  | folder
  | file (content : Bytes)
  deriving Repr

structure FileTree where
  files : List (Place × Bytes)
  /-- folders that exist whether or not something is in them -/
  folders : List Place
  deriving Repr

namespace FileTree

def below? : (folder place : Place) → Option Place
  | [], place => some place
  | _ :: _, [] => none
  | a :: folder, b :: place => if a = b then below? folder place else none

def isFolder (tree : FileTree) (place : Place) : Bool :=
  place.isEmpty || (tree.folders ++ tree.files.map Prod.fst).any fun p => (below? place p).isSome

def entry? (tree : FileTree) (place : Place) : Option Entry :=
  match tree.files.lookup place with
  | some content => some (.file content)
  | none => if tree.isFolder place then some .folder else none

def enter (place : Place) (segment : Text) : Place :=
  if segment = [] ∨ segment = ['.'] then place
  else if segment = ['.', '.'] then place.dropLast
  else place ++ [segment]

/-- The place that segments lead to; each must be taken in a folder. -/
def follow (tree : FileTree) (place : Place) : List Text → Except ReadFault Place
  | [] => .ok place
  | segment :: segments =>
    match tree.entry? place with
    | none => .error .missing
    | some (.file _) => .error .notFolder
    | some .folder => follow tree (enter place segment) segments

def place (tree : FileTree) (path : Text) : Except ReadFault Place :=
  tree.follow [] (path.split '/')

def read (tree : FileTree) (path : Text) : Except ReadFault Bytes := do
  match tree.entry? (← tree.place path) with
  | none => .error .missing
  | some .folder => .error .isFolder
  | some (.file content) => .ok content

/-- The files in a folder and the folders below it, by their paths from there. -/
def filesIn (tree : FileTree) (path : Text) : List Text :=
  match tree.place path with
  | .error _ => []
  | .ok folder => tree.files.filterMap fun (place, _) => (below? folder place).map (Text.join ['/'])

end FileTree

end ServerPages
