import ServerPages.Control.Table
import ServerPages.Text.Basic

/-! What is known about the types of controls: qualified type names, the data types of attributes
and properties, and the registry that maps `prefix:name` to a control. Names are looked up without
regard to ASCII case. -/

namespace ServerPages

structure QualifiedName where
  scope : Text
  name : Text
  deriving DecidableEq, Repr

namespace QualifiedName

/-- The name split at its last dot. -/
def ofText (t : Text) : QualifiedName :=
  match Text.cut? t.reverse ['.'] with
  | some (name, scope) => ⟨scope.reverse, name.reverse⟩
  | none => ⟨[], t⟩

def label (q : QualifiedName) : Text :=
  if q.scope.isEmpty then q.name else q.scope ++ '.' :: q.name

end QualifiedName

inductive DataKind where
  | string
  | boolean
  | number
  | enum
  | color
  | unit
  | url
  /-- a property set through the attributes of a sub-element -/
  | object
  /-- a list property whose items are child controls -/
  | collection
  /-- markup used later -/
  | template
  /-- the name of an event handler -/
  | event
  deriving DecidableEq, Repr

namespace DataKind

def all : List DataKind :=
  [.string, .boolean, .number, .enum, .color, .unit, .url, .object, .collection, .template, .event]

def label : DataKind → Text
  | .string => "string".toList
  | .boolean => "boolean".toList
  | .number => "number".toList
  | .enum => "enum".toList
  | .color => "color".toList
  | .unit => "unit".toList
  | .url => "url".toList
  | .object => "object".toList
  | .collection => "collection".toList
  | .template => "template".toList
  | .event => "event".toList

def ofLabel? (t : Text) : Option DataKind := all.find? (·.label == t)

end DataKind

structure DataType where
  kind : DataKind
  key : Option Text
  deriving DecidableEq, Repr

structure ControlInfo where
  typeName : QualifiedName
  /-- whether sub-elements that name a declared property are assignments to it -/
  childrenAsProperties : Bool
  /-- data types by lower-case name -/
  dataTypes : Table Text DataType
  deriving Repr

namespace ControlInfo

def declare (info : ControlInfo) (name : Text) (dataType : DataType) : ControlInfo :=
  { info with dataTypes := info.dataTypes.insert name.lower dataType }

/-- A control with its declarations; of two for one name the later counts. -/
def make (typeName : QualifiedName) (childrenAsProperties : Bool)
    (dataTypes : List (Text × DataType)) : ControlInfo :=
  dataTypes.foldl (fun info (name, dataType) => info.declare name dataType)
    ⟨typeName, childrenAsProperties, .empty⟩

def dataType? (info : ControlInfo) (name : Text) : Option DataType :=
  info.dataTypes.find? name.lower

end ControlInfo

/-- What a page is resolved against: the control for a prefix and a local name. -/
abbrev Lookup := Text → Text → Option ControlInfo

/-- Entries by prefix and name in lower case. -/
abbrev Registered (α : Type) := Table (Text × Text) α

namespace Registered

variable {α : Type}

/-- A registration replaces an earlier one of the same prefix and name. -/
def register (r : Registered α) (scope name : Text) (value : α) : Registered α :=
  r.insert (scope.lower, name.lower) value

def get? (r : Registered α) (scope name : Text) : Option α := r.find? (scope.lower, name.lower)

end Registered

abbrev Registry := Registered ControlInfo

/-- The controls a page registers for itself. -/
abbrev UserControls := Registered QualifiedName

end ServerPages
