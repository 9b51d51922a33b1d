import ServerPages.Page.Basic
import ServerPages.Text.Quoted

/-! The outline of a page: its controls, templates and scripts, one a line, indented by depth. -/

namespace ServerPages

def TypedAttribute.outline (a : TypedAttribute) : Text :=
  ' ' :: a.name ++
    match a.value with
    | .absent => []
    | .text value => '=' :: value.quote
    | .binding expression encode =>
      ['=', '<', '%', '#'] ++ (if encode then [':'] else []) ++ expression ++ ['%', '>']

def ControlHead.outline (head : ControlHead) : Text :=
  head.typeName.label ++ (match head.id with | some id => '#' :: id | none => []) ++
    head.attributes.flatMap TypedAttribute.outline

namespace Control

def indent (depth : Nat) : Text := List.replicate (2 * depth) ' '

mutual

def outline (depth : Nat) : Control → Text
  | .root children => indent depth ++ "Root\n".toList ++ outlines (depth + 1) children
  | .literal text _ => indent depth ++ "Literal ".toList ++ text.quote ++ ['\n']
  | .code source _ => indent depth ++ "Code ".toList ++ source.quote ++ ['\n']
  | .property name value _ =>
    indent depth ++ '.' :: name ++ " =\n".toList ++ outline (depth + 1) value
  | .typed head properties children =>
    indent depth ++ head.outline ++ ['\n'] ++ outlines (depth + 1) properties ++
      outlines (depth + 1) children

def outlines (depth : Nat) : List Control → Text
  | [] => []
  | control :: controls => outline depth control ++ outlines depth controls

end

end Control

def Template.outline (t : Template) : Text :=
  "Template ".toList ++ t.id.getD ['-'] ++ " -> ".toList ++ t.placeholder ++ ['\n'] ++
    Control.outlines 1 t.controls

/-- The outline of controls, templates and scripts. -/
def outlineOf (root : List Control) (templates : List Template) (scripts : List Script) : Text :=
  Control.outlines 0 root ++ templates.flatMap Template.outline ++
    scripts.flatMap fun s => "Script (".toList ++ Text.ofNat s.lines.length ++ " lines)\n".toList

def Page.outline (page : Page) : Text := outlineOf page.root page.templates page.scripts

end ServerPages
