import ServerPages.Markup.Lexeme

/-! The raw tree of a page: elements with their children, directives, code blocks, bindings and
literal text, each with the fragment that wrote it. -/

namespace ServerPages

inductive Closing where
  /-- `<br/>`, or an element such as `<br>` that holds nothing -/
  | selfClosing
  /-- by its closing tag -/
  | closed (tag : Fragment)
  /-- by the closing tag of an element around it -/
  | unclosed
  | endOfInput
  deriving DecidableEq, Repr

structure Tag where
  /-- the name as written, with its prefix -/
  name : Text
  attributes : List Attribute
  opening : Fragment
  /-- whether some attribute says `runat="server"` -/
  runatServer : Bool
  deriving DecidableEq, Repr

namespace Tag

/-- The prefix and the local name of a tag name; no prefix unless text stands on both sides of the
first colon. -/
def splitName (name : Text) : Option Text × Text :=
  match name.cut? [':'] with
  | some (scope, rest) =>
    if scope.isEmpty || rest.isEmpty then (none, name) else (some scope, rest)
  | none => (none, name)

def scope? (tag : Tag) : Option Text := (splitName tag.name).1

def localName (tag : Tag) : Text := (splitName tag.name).2

def isServer (tag : Tag) : Bool := tag.scope?.isSome || tag.runatServer

def isNamed (tag : Tag) (name : Text) : Bool := tag.localName.same name

def attribute? (tag : Tag) (name : Text) : Option Text := Attribute.textOf? tag.attributes name

end Tag

structure Directive where
  name : Text
  attributes : List Attribute
  place : Fragment
  deriving DecidableEq, Repr

inductive Node where
  | directive (directive : Directive)
  | element (tag : Tag) (closing : Closing) (children : List Node)
  | literal (place : Fragment)
  | code (kind : CodeKind) (code : Text) (place : Fragment)
  | binding (expression : Text) (encode : Bool) (place : Fragment)
  deriving Repr

namespace Node

def start : Node → Nat
  | .directive d => d.place.offset
  | .element tag _ _ => tag.opening.offset
  | .literal place => place.offset
  | .code _ _ place => place.offset
  | .binding _ _ place => place.offset

mutual

/-- the offset where a node ends, its closing tag or else its last child included -/
def stop : Node → Nat
  | .directive d => d.place.span.stop
  | .element tag (.closed place) _ => max tag.opening.span.stop place.span.stop
  | .element tag _ children => max tag.opening.span.stop (lastStop children)
  | .literal place => place.span.stop
  | .code _ _ place => place.span.stop
  | .binding _ _ place => place.span.stop

def lastStop : List Node → Nat
  | [] => 0
  | [node] => node.stop
  | _ :: nodes => lastStop nodes

end

def span (node : Node) : Span := ⟨node.start, node.stop⟩

def attributes? : Node → Option (List Attribute)
  | .directive d => some d.attributes
  | .element tag _ _ => some tag.attributes
  | _ => none

end Node

end ServerPages
