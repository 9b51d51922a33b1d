import ServerPages.Text.Space

/-! Paths with `/` between their components. Doubled and trailing slashes and inner `.` components
do not count; a leading `.` and every `..` do. References in a page name a file relative to the page
or, with `~/` or `/`, to the application root, and never lead above that root. -/

namespace ServerPages.Path

inductive Component where
  | root
  | current
  | parent
  | normal (name : Text)
  deriving DecidableEq, Repr

def component? (first : Bool) (segment : Text) : Option Component :=
  if segment = [] then none
  else if segment = ['.'] then (if first then some .current else none)
  else if segment = ['.', '.'] then some .parent
  else some (.normal segment)

def ofSegments : List Text → List Component
  | [] => []
  | segment :: segments =>
    (component? true segment).toList ++ segments.filterMap (component? false)

def components (path : Text) : List Component :=
  match path with
  | '/' :: _ => .root :: (path.split '/').filterMap (component? false)
  | _ => ofSegments (path.split '/')

def same (a b : Text) : Bool := components a == components b

def trimSegments (rooted : Bool) : List Text → List Text
  | [] => []
  | segment :: segments =>
    match trimSegments true segments with
    | [] => if (component? (!rooted) segment).isSome then [segment] else []
    | kept => segment :: kept

def parent? (path : Text) : Option Text :=
  let rooted := path.head? == some '/'
  let segments := path.split '/'
  let (start, segments) := if rooted then ([[]], segments.tail) else ([], segments)
  match trimSegments rooted segments with
  | [] => none
  | kept =>
    let outer := start ++ trimSegments rooted kept.dropLast
    some (if outer = [[]] then ['/'] else Text.join ['/'] outer)

/-- The last component, unless it is `..` or there is none. -/
def fileName? (path : Text) : Option Text :=
  match (components path).getLast? with
  | some (.normal name) => some name
  | _ => none

/-- The order of components: by kind, names by their characters. -/
def Component.le : Component → Component → Bool
  | .root, _ => true
  | .current, c => c != .root
  | .parent, .parent => true
  | .parent, .normal _ => true
  | .parent, _ => false
  | .normal a, .normal b => !List.lex b a fun c d => c.toNat < d.toNat
  | .normal _, _ => false

def leComponents : List Component → List Component → Bool
  | [], _ => true
  | _ :: _, [] => false
  | a :: as, b :: bs => if a = b then leComponents as bs else a.le b

def le (a b : Text) : Bool := leComponents (components a) (components b)

def isAbsolute (path : Text) : Bool := path.head? == some '/'

/-- A path taken from a folder. Nothing is done about `.` and `..`. -/
def join (folder path : Text) : Text :=
  if isAbsolute path || folder.isEmpty then path
  else if folder.getLast? == some '/' then folder ++ path
  else folder ++ '/' :: path

def forward (path : Text) : Text := path.map fun c => if c = '\\' then '/' else c

/-- The segments left when `.` and `..` have been followed; `latest` holds those so far, the last
first. -/
def follow (latest : List Text) : List Text → List Text
  | [] => latest.reverse
  | segment :: segments =>
    if segment = [] ∨ segment = ['.'] then follow latest segments
    else if segment = ['.', '.'] then follow latest.tail segments
    else follow (segment :: latest) segments

def fromRoot? (reference : Text) : Option Text :=
  match reference with
  | '~' :: '/' :: rest => some rest
  | ['~'] => some []
  | '/' :: rest => some rest
  | _ => none

/-- The file that a reference in `page` names, relative to the application root. -/
def resolve (page reference : Text) : Text :=
  let reference := forward reference.trim
  let segments :=
    match fromRoot? reference with
    | some rest => rest.split '/'
    | none => (forward ((parent? page).getD [])).split '/' ++ reference.split '/'
  Text.join ['/'] (follow [] segments)

end ServerPages.Path
