import ServerPages.Control.Type
import ServerPages.Markup.Attribute
import ServerPages.Source.Location

/-! The control tree of a page: literals, encoded expressions, typed controls with attributes,
properties and children, and containers that are flattened where controls are collected. -/

namespace ServerPages

structure TypedAttribute where
  name : Text
  value : AttributeValue
  dataType : Option DataType
  location : Location
  deriving DecidableEq, Repr

/-- A typed control apart from what is inside it. -/
structure ControlHead where
  typeName : QualifiedName
  location : Location
  id : Option Text
  /-- the attributes in source order, `runat` left out -/
  attributes : List TypedAttribute
  deriving DecidableEq, Repr

inductive Control where
  | root (children : List Control)
  | literal (text : Text) (location : Location)
  /-- an encoded expression `<%: … %>` -/
  | code (code : Text) (location : Location)
  /-- a sub-element that assigns a property -/
  | property (name : Text) (value : Control) (location : Location)
  | typed (head : ControlHead) (properties children : List Control)
  deriving Repr

namespace Control

def id? : Control → Option Text
  | .typed head _ _ => head.id
  | .property _ value _ => value.id?
  | _ => none

def children : Control → List Control
  | .root children => children
  | .typed _ _ children => children
  | _ => []

/-- where a control stands; a container stands nowhere -/
def location? : Control → Option Location
  | .root _ => none
  | .literal _ location => some location
  | .code _ location => some location
  | .property _ _ location => some location
  | .typed head _ _ => some head.location

def head? : Control → Option ControlHead
  | .typed head _ _ => some head
  | _ => none

end Control

def ControlHead.attribute? (head : ControlHead) (name : Text) : Option TypedAttribute :=
  head.attributes.find? (·.name.same name)

end ServerPages
