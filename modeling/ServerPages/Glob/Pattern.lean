import ServerPages.Text.Basic

/-! Glob patterns. `?` is one byte and `*` any number of them, `[a-z]` one byte of a set and
`{a,b}` a choice of patterns; `**` between slashes is any number of folders, and anywhere else it is
two `*`. A backslash takes the next character as it is. -/

namespace ServerPages.Glob

inductive Piece where
  | literal (c : Char)
  | any
  | star
  /-- `**` and a slash at the start: any number of folders -/
  | anyFolders
  /-- `**` between slashes: a slash, then any number of folders -/
  | innerFolders
  /-- a slash and `**` at the end: all there is in a folder -/
  | inside
  | oneOf (negated : Bool) (ranges : List (Char × Char))
  /-- one of the branches; without any, nothing -/
  | choice (branches : List (List Piece))
  deriving Repr

inductive Defect where
  | unclosedClass
  | invalidRange (low high : Char)
  | unclosedGroup
  | unopenedGroup
  | danglingEscape
  deriving DecidableEq, Repr

def Defect.message : Defect → Text
  | .unclosedClass => "unclosed character class; missing ']'".toList
  | .invalidRange low high =>
    "invalid range; '".toList ++ low :: "' > '".toList ++ [high, '\x27']
  | .unclosedGroup =>
    "unclosed alternate group; missing '\x7d' (maybe escape '\x7b' with '[\x7b]'?)".toList
  | .unopenedGroup =>
    "unopened alternate group; missing '\x7b' (maybe escape '\x7d' with '[\x7d]'?)".toList
  | .danglingEscape => "dangling '\\'".toList

structure ClassDraft where
  negated : Bool
  /-- the ranges so far, the latest first -/
  latest : List (Char × Char)
  /-- whether a hyphen waits for the end of the latest range -/
  ranging : Bool
  deriving Repr

namespace ClassDraft

def opened (rest : Text) : ClassDraft :=
  ⟨rest.head? == some '!' || rest.head? == some '^', [], false⟩

/-- One more character of the class: the end of the latest range, a hyphen, or a range of its own. -/
def add (d : ClassDraft) (c : Char) : Except Defect ClassDraft :=
  match d.latest with
  | [] => .ok { d with latest := [(c, c)] }
  | (low, high) :: ranges =>
    if d.ranging then
      if c < low then .error (.invalidRange low c)
      else .ok ⟨d.negated, (low, c) :: ranges, false⟩
    else if c = '-' then .ok { d with ranging := true }
    else .ok { d with latest := (c, c) :: (low, high) :: ranges }

/-- The class; a hyphen that still waits stands for itself. -/
def piece (d : ClassDraft) : Piece :=
  .oneOf d.negated ((if d.ranging then ('-', '-') :: d.latest else d.latest).reverse)

end ClassDraft

/-- The pieces of a branch and the branches before it, the latest first. -/
structure Branches where
  pieces : List Piece
  done : List (List Piece)
  deriving Repr

structure Draft where
  current : Branches
  /-- what waits for the open groups to close, the innermost first -/
  outer : List Branches
  deriving Repr

def isBlank (branch : List Piece) : Bool :=
  branch.all fun
    | .choice [] => true
    | _ => false

namespace Draft

def empty : Draft := ⟨⟨[], []⟩, []⟩

def setPieces (d : Draft) (pieces : List Piece) : Draft :=
  { d with current := { d.current with pieces } }

def push (d : Draft) (piece : Piece) : Draft := d.setPieces (piece :: d.current.pieces)

def isGrouped (d : Draft) : Bool := !d.outer.isEmpty

def openGroup (d : Draft) : Draft := ⟨⟨[], []⟩, d.current :: d.outer⟩

/-- A comma ends a branch in a group and is a literal outside of one. -/
def comma (d : Draft) : Draft :=
  if d.isGrouped then
    { d with current := ⟨[], d.current.pieces.reverse :: d.current.done⟩ }
  else d.push (.literal ',')

/-- The end of a group. Branches of which nothing is left do not count. -/
def closeGroup (d : Draft) : Except Defect Draft :=
  match d.outer with
  | [] => .error .unopenedGroup
  | current :: outer =>
    let branches := (d.current.pieces.reverse :: d.current.done).reverse
    .ok (push ⟨current, outer⟩ (.choice (branches.filter (!isBlank ·))))

def startsFolder (d : Draft) (last : Option Char) : Bool :=
  last == some '/' || (d.isGrouped && (last == some ',' || last == some '\x7b'))

def endsBranch (d : Draft) (next : Option Char) : Bool :=
  next == none || (d.isGrouped && (next == some ',' || next == some '\x7d'))

/-- The slash before `**` goes into the piece; folders before it already cover it. -/
def folders (d : Draft) (piece : Piece) : Draft :=
  match d.current.pieces with
  | .anyFolders :: _ => d
  | .inside :: _ => d
  | _ :: pieces => d.setPieces (piece :: pieces)
  | [] => d.push piece

/-- The pattern with a `**` that stands for folders, between the characters `last` and `next`; none
where it is two `*`. A slash that comes next belongs to it. -/
def deep? (d : Draft) (last next : Option Char) : Option Draft :=
  if d.current.pieces.isEmpty then
    if next == none || next == some '/' then some (d.push .anyFolders) else none
  else if !d.startsFolder last then none
  else if d.endsBranch next then some (d.folders .inside)
  else if next == some '/' then some (d.folders .innerFolders)
  else none

def finish (d : Draft) : Except Defect (List Piece) :=
  if d.isGrouped then .error .unclosedGroup
  else
    match d.current.pieces with
    | [.anyFolders] => .ok [.star]
    | pieces => .ok pieces.reverse

end Draft

inductive Mode where
  /-- nothing that is open; `last` is the character before -/
  | plain (last : Option Char)
  | escaped
  /-- the sign that negates a class -/
  | negation (draft : ClassDraft)
  | inClass (draft : ClassDraft)
  deriving Repr

def readFrom (d : Draft) : Mode → Text → Except Defect (List Piece)
  | .plain _, [] => d.finish
  | .escaped, [] => .error .danglingEscape
  | .negation _, [] => .error .unclosedClass
  | .inClass _, [] => .error .unclosedClass
  | .escaped, c :: rest => readFrom (d.push (.literal c)) (.plain c) rest
  | .negation draft, _ :: rest => readFrom d (.inClass draft) rest
  | .inClass draft, c :: rest =>
    if c = ']' ∧ draft.latest ≠ [] then readFrom (d.push draft.piece) (.plain c) rest
    else
      match draft.add c with
      | .ok draft => readFrom d (.inClass draft) rest
      | .error defect => .error defect
  | .plain last, '*' :: '*' :: '/' :: rest =>
    match d.deep? last (some '/') with
    | some d => readFrom d (.plain '/') rest
    | none => readFrom (((d.push .star).push .star).push (.literal '/')) (.plain '/') rest
  | .plain last, '*' :: '*' :: rest =>
    readFrom ((d.deep? last rest.head?).getD ((d.push .star).push .star)) (.plain '*') rest
  | .plain _, '*' :: rest => readFrom (d.push .star) (.plain '*') rest
  | .plain _, '?' :: rest => readFrom (d.push .any) (.plain '?') rest
  | .plain _, '[' :: rest =>
    let draft := ClassDraft.opened rest
    readFrom d (if draft.negated then .negation draft else .inClass draft) rest
  | .plain _, '\x7b' :: rest => readFrom d.openGroup (.plain '\x7b') rest
  | .plain _, '\x7d' :: rest =>
    match d.closeGroup with
    | .ok d => readFrom d (.plain '\x7d') rest
    | .error defect => .error defect
  | .plain _, ',' :: rest => readFrom d.comma (.plain ',') rest
  | .plain _, '\\' :: rest => readFrom d .escaped rest
  | .plain _, c :: rest => readFrom (d.push (.literal c)) (.plain c) rest

structure Invalid where
  pattern : Text
  defect : Defect
  deriving DecidableEq, Repr

def Invalid.message (e : Invalid) : Text :=
  "invalid glob pattern: error parsing glob '".toList ++ e.pattern ++ "': ".toList ++
    e.defect.message

end Glob

structure Glob where
  pieces : List Glob.Piece
  deriving Repr

def Glob.ofText (pattern : Text) : Except Glob.Invalid Glob :=
  match Glob.readFrom .empty (.plain none) pattern with
  | .ok pieces => .ok ⟨pieces⟩
  | .error defect => .error ⟨pattern, defect⟩

end ServerPages
