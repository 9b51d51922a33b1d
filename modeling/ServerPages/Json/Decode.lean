import ServerPages.Json.Document

/-! Going through a document in order and taking values of known shapes from it. A struct may be
written as an object or as the array of its fields. -/

namespace ServerPages.Json

abbrev Decoded := Except Fault

namespace Value

/-- The fault of a value that is not of the shape that is wanted: an unreadable one fails first for
that reason, an array or object at once. -/
def wrongShape : Value → Fault
  | .number read _ => read.getD .shape
  | .string (.error fault) _ => fault
  | .absent => .ended
  | .junk => .malformed
  | .broken fault => fault
  | .unreached fault => fault
  | _ => .shape

def asText : Value → Decoded Text
  | .string read _ => read
  | value => .error value.wrongShape

def asBool : Value → Decoded Bool
  | .bool value => .ok value
  | value => .error value.wrongShape

def asOption (decode : Value → Decoded α) : Value → Decoded (Option α)
  | .null => .ok none
  | value => some <$> decode value

end Value

def danglingFault : Value → Fault
  | .absent => .ended
  | .string (.error fault) _ => fault
  | .string _ (some fault) => fault
  | _ => .malformed

namespace Ending

def finish : Ending → Decoded Unit
  | .closed => .ok ()
  | .open fault => .error fault
  | .dangling found => .error (danglingFault found)

/-- The ending after the last field of a struct that is written as an array: no comma may follow. -/
def finishFields : Ending → Decoded Unit
  | .closed => .ok ()
  | .open fault => .error fault
  | .dangling _ => .error .malformed

end Ending

mutual

def skip : Value → Decoded Unit
  | .null | .bool _ => .ok ()
  | .number _ skipped => (skipped.map Except.error).getD (.ok ())
  | .string _ skipped => (skipped.map Except.error).getD (.ok ())
  | .array items ending => do
    skipItems items
    ending.finish
  | .object members ending => do
    skipMembers members
    ending.finish
  | .absent => .error .ended
  | .junk => .error .malformed
  | .broken fault => .error fault
  | .unreached fault => .error fault

def skipItems : List Value → Decoded Unit
  | [] => .ok ()
  | item :: items => do
    skip item
    skipItems items

def skipMembers : List (Option Text × Value) → Decoded Unit
  | [] => .ok ()
  | (_, value) :: members => do
    skip value
    skipMembers members

end

namespace Value

def asList (decode : Value → Decoded α) : Value → Decoded (List α)
  | .array items ending => do
    let items ← items.mapM decode
    ending.finish
    return items
  | value => .error value.wrongShape

def asMembers (decode : Value → Decoded α) : Value → Decoded (List (Text × α))
  | .object members ending => do
    let members ← members.mapM fun
      | (some key, value) => return (key, ← decode value)
      | (none, _) => throw .malformed
    ending.finish
    return members
  | value => .error value.wrongShape

end Value

/-- A field of a struct: how a value for it is put in. -/
structure Field (σ : Type) where
  name : Text
  read : Value → σ → Decoded σ

namespace Field

variable {σ : Type}

/-- The members of an object go into their fields. A field may not come twice; an unknown key is
passed over or refused. -/
def readMembers (fields : List (Field σ)) (lenient : Bool) (seen : List Text) :
    List (Option Text × Value) → σ → Decoded σ
  | [], state => .ok state
  | (none, _) :: _, _ => .error .malformed
  | (some key, value) :: members, state =>
    match fields.find? (·.name == key) with
    | none =>
      if lenient then do
        skip value
        readMembers fields lenient seen members state
      else .error .shape
    | some field =>
      if seen.contains key then .error .shape
      else do
        let state ← field.read value state
        readMembers fields lenient (key :: seen) members state

/-- The items of an array go into the fields in order; nothing may follow the last. -/
def readItems : List (Field σ) → List Value → Ending → σ → Decoded σ
  | [], [], ending, state => do
    ending.finishFields
    return state
  | [], _ :: _, _, _ => .error .malformed
  | _ :: _, [], ending, state => do
    ending.finish
    return state
  | field :: fields, item :: items, ending, state => do
    let state ← field.read item state
    readItems fields items ending state

def readAll (fields : List (Field σ)) (lenient : Bool) (start : σ) : Value → Decoded σ
  | .object members ending => do
    let state ← readMembers fields lenient [] members start
    ending.finish
    return state
  | .array items ending => readItems fields items ending start
  | value => .error value.wrongShape

end Field

/-- One of some names, written as a string or as an object with the name as its only key and null
as the value. -/
def oneOf (find? : Text → Option α) : Value → Decoded α
  | .string read _ => do
    let name ← read
    match find? name with
    | some value => .ok value
    | none => .error .shape
  | .object ((key, value) :: more) ending => do
    let some name := key | throw .malformed
    let some result := find? name | throw .shape
    match value with
    | .null => pure ()
    | value => throw value.wrongShape
    if !more.isEmpty then throw .malformed
    ending.finishFields
    return result
  | .object [] (.dangling found) => .error found.wrongShape
  | .object [] (.open fault) => .error fault
  | .absent => .error .ended
  | .unreached fault => .error fault
  | _ => .error .malformed

end ServerPages.Json
