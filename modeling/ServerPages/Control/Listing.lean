import ServerPages.Control.Basic

/-! Lists of sibling controls. Whatever gathers controls does it here: nothing is added for nothing,
a container adds its children, and a literal that follows a literal is merged into it. -/

namespace ServerPages

/-- The siblings gathered so far, the latest first. -/
structure Listing where
  dropLiterals : Bool
  latest : List Control
  /-- the first two literals of different files that were to be merged -/
  mismatch : Option PathMismatch
  deriving Repr

namespace Listing

def empty (dropLiterals : Bool) : Listing := ⟨dropLiterals, [], none⟩

def controls (l : Listing) : List Control := l.latest.reverse

def append (l : Listing) (control : Control) : Listing := { l with latest := control :: l.latest }

def addLiteral (l : Listing) (text : Text) (location : Location) : Listing :=
  if l.dropLiterals then l
  else
    match l.latest with
    | .literal before start :: latest =>
      match start.combine location with
      | .ok whole => { l with latest := .literal (before ++ text) whole :: latest }
      | .error mismatch => { l with mismatch := l.mismatch.or (some mismatch) }
    | _ => l.append (.literal text location)

mutual

/-- A control is added: a container by its children, a literal to the literal before it. -/
def add (l : Listing) : Control → Listing
  | .root children => addAll l children
  | .literal text location => l.addLiteral text location
  | .code code location => l.append (.code code location)
  | .property name value location => l.append (.property name value location)
  | .typed head properties children => l.append (.typed head properties children)

def addAll (l : Listing) : List Control → Listing
  | [] => l
  | control :: controls => addAll (add l control) controls

end

def add? (l : Listing) (control : Option Control) : Listing :=
  match control with
  | some control => l.add control
  | none => l

def isEmpty (l : Listing) : Bool := l.latest.isEmpty

end Listing

def PathMismatch.mergeMessage (m : PathMismatch) : Text :=
  "cannot merge literals: ".toList ++ m.message

end ServerPages
