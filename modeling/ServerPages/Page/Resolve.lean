import ServerPages.Control.Html
import ServerPages.Markup.Node
import ServerPages.Page.Basic

/-! What a server tag denotes: a content block, a placeholder, a known control, a control that the
page registers, the control of a plain element, a script, or nothing known. -/

namespace ServerPages

inductive Resolution where
  /-- `<prefix:Content>` -/
  | content
  /-- `<prefix:ContentPlaceHolder ID="…">` -/
  | placeholder (id : Text)
  | known (info : ControlInfo)
  | user (typeName : QualifiedName)
  | html (typeName : QualifiedName)
  | script
  | unknown
  deriving Repr

/-- The text of an attribute of a tag unless it is empty. -/
def Tag.given? (tag : Tag) (name : Text) : Option Text :=
  (tag.attribute? name).filter fun value => !value.isEmpty

theorem Tag.given?_eq_some_iff {tag : Tag} {name value : Text} :
    tag.given? name = some value ↔ value ≠ [] ∧ ∃ front a back, tag.attributes = front ++ a :: back ∧
      (∀ b ∈ front, b.name.same name = false) ∧ a.name.same name = true ∧ a.value.asText = value := by
  rw [given?, Option.filter_eq_some_iff, attribute?, Attribute.textOf?_eq_some_iff, and_comm]
  simp

def Tag.id? (tag : Tag) : Option Text := tag.given? "ID".toList

/-- What a tag denotes, given the known controls and those the page has registered so far. -/
def Resolution.of (lookup : Lookup) (registered : UserControls) (tag : Tag) : Resolution :=
  match tag.scope? with
  | none =>
    if tag.isNamed "script".toList then .script
    else .html (Html.controlType tag.localName (tag.attribute? "type".toList))
  | some scope =>
    if tag.isNamed "Content".toList then .content
    else
      match if tag.isNamed "ContentPlaceHolder".toList then tag.id? else none with
      | some id => .placeholder id
      | none =>
        match lookup scope tag.localName with
        | some info => .known info
        | none =>
          match Registered.get? registered scope tag.localName with
          | some typeName => .user typeName
          | none => .unknown

end ServerPages
