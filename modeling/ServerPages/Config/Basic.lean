import ServerPages.Config.Comment
import ServerPages.Control.Standard
import ServerPages.Json.Decode

/-! The configuration of a check: which files are pages, which are left out, and the controls that
are known beside the standard ones. It is written in JSON, with comments. -/

namespace ServerPages

structure ControlConfig where
  scope : Text
  name : Text
  typeName : Text
  childrenAsProperties : Bool
  /-- data types by name, in the order in which the names first come -/
  dataTypes : List (Text × DataType)
  deriving DecidableEq, Repr

structure Config where
  extensions : List Text
  /-- patterns of files to leave out -/
  exclude : List Text
  /-- whether the standard controls are known -/
  standardControls : Bool
  controls : List ControlConfig
  deriving DecidableEq, Repr

def ControlConfig.info (c : ControlConfig) : ControlInfo :=
  .make (.ofText c.typeName) c.childrenAsProperties c.dataTypes

namespace Config

/-- the configuration of a workspace that has none -/
def default : Config := ⟨[], [], true, []⟩

def pageExtensions : List Text := [".aspx", ".ascx", ".master"].map String.toList

def fileExtensions (c : Config) : List Text :=
  if c.extensions.isEmpty then pageExtensions else c.extensions

def registry (c : Config) : Registry :=
  c.controls.foldl (fun r control => Registered.register r control.scope control.name control.info)
    (if c.standardControls then Standard.registry else .empty)

open Json

/-- A value in the place of its name's first value, or at the end for a new name. -/
def setValue (entries : List (Text × α)) (name : Text) (value : α) : List (Text × α) :=
  if entries.any (·.1 == name) then
    entries.map fun entry => if entry.1 == name then (name, value) else entry
  else entries ++ [(name, value)]

structure DataTypeDraft where
  kind : Option DataKind := none
  key : Option Text := none

def readDataType (value : Value) : Decoded DataType := do
  let fields : List (Json.Field DataTypeDraft) :=
    [⟨"kind".toList, fun value draft => do
        return { draft with kind := some (← oneOf DataKind.ofLabel? value) }⟩,
     ⟨"key".toList, fun value draft => do
        return { draft with key := ← value.asOption Value.asText }⟩]
  let draft ← Field.readAll fields true {} value
  match draft.kind with
  | some kind => .ok ⟨kind, draft.key⟩
  | none => .error .shape

structure ControlDraft where
  scope : Option Text := none
  name : Option Text := none
  typeName : Option Text := none
  childrenAsProperties : Bool := false
  dataTypes : List (Text × DataType) := []

def readControl (value : Value) : Decoded ControlConfig := do
  let fields : List (Json.Field ControlDraft) :=
    [⟨"prefix".toList, fun value draft => do return { draft with scope := some (← value.asText) }⟩,
     ⟨"name".toList, fun value draft => do return { draft with name := some (← value.asText) }⟩,
     ⟨"type".toList, fun value draft => do return { draft with typeName := some (← value.asText) }⟩,
     ⟨"childrenAsProperties".toList, fun value draft => do
        return { draft with childrenAsProperties := ← value.asBool }⟩,
     ⟨"dataTypes".toList, fun value draft => do
        let entries ← value.asMembers readDataType
        let dataTypes := entries.foldl (fun all (name, value) => setValue all name value) []
        return { draft with dataTypes }⟩]
  let draft ← Field.readAll fields false {} value
  match draft.scope, draft.name, draft.typeName with
  | some scope, some name, some typeName =>
    .ok ⟨scope, name, typeName, draft.childrenAsProperties, draft.dataTypes⟩
  | _, _, _ => .error .shape

def readConfig : Value → Decoded Config :=
  Field.readAll
    [⟨"extensions".toList, fun value config => do
        return { config with extensions := ← value.asList Value.asText }⟩,
     ⟨"exclude".toList, fun value config => do
        return { config with exclude := ← value.asList Value.asText }⟩,
     ⟨"standardControls".toList, fun value config => do
        return { config with standardControls := ← value.asBool }⟩,
     ⟨"controls".toList, fun value config => do
        return { config with controls := ← value.asList readControl }⟩]
    false default

def ofText (t : Text) : Decoded Config := do
  let (value, followed) := Json.ofText (Comment.remove t)
  let config ← readConfig value
  if followed then .error .malformed else .ok config

end Config

end ServerPages
