import ServerPages.Control.Listing
import ServerPages.Page.Resolve
import ServerPages.Source.LineIndex
import ServerPages.Text.Lines

/-! From the raw tree to controls. Nodes are visited in document order; each gives at most one
control, and beside it findings: problems, templates, scripts, placeholders, directives and the user
controls a page registers, which hold for the nodes that follow. -/

namespace ServerPages

/-- A user control that a page registers, and the file it is in. -/
structure Registration where
  scope : Text
  name : Text
  file : Text
  deriving DecidableEq, Repr

/-- What is collected beside the controls, each part in document order. -/
structure Findings where
  errors : List PageError := []
  templates : List Template := []
  scripts : List Script := []
  placeholders : List Text := []
  directives : List PageDirective := []
  registrations : List Registration := []
  /-- literals of different files that were to be merged -/
  mismatches : List PathMismatch := []
  deriving Repr

def Findings.append (a b : Findings) : Findings :=
  ⟨a.errors ++ b.errors, a.templates ++ b.templates, a.scripts ++ b.scripts,
    a.placeholders ++ b.placeholders, a.directives ++ b.directives,
    a.registrations ++ b.registrations, a.mismatches ++ b.mismatches⟩

instance : Append Findings := ⟨Findings.append⟩

/-- The registered controls after some registrations; of two for one tag the later counts. -/
def UserControls.extend (registered : UserControls) (registrations : List Registration) :
    UserControls :=
  registrations.foldl
    (fun r entry => Registered.register r entry.scope entry.name (userControlType entry.file))
    registered

structure Site where
  path : Text
  index : LineIndex
  lookup : Lookup

namespace Site

def locate (site : Site) (span : Span) : Location := site.index.locate site.path span

def literal (site : Site) (place : Fragment) : Control :=
  .literal place.text (site.locate place.span)

def gather (dropLiterals : Bool) (controls : List Control) : List Control × Findings :=
  let listing := (Listing.empty dropLiterals).addAll controls
  (listing.controls, { mismatches := listing.mismatch.toList })

def attributes (site : Site) (tag : Tag) (info : Option ControlInfo) : List TypedAttribute :=
  (tag.attributes.filter fun a => !a.name.same "runat".toList).map fun a =>
    ⟨a.name, a.value, info.bind (·.dataType? a.name), site.locate a.place.span⟩

def head (site : Site) (tag : Tag) (span : Span) (typeName : QualifiedName)
    (info : Option ControlInfo) : ControlHead :=
  ⟨typeName, site.locate span, tag.id?, site.attributes tag info⟩

def registration? (site : Site) (d : PageDirective) : Option Registration := do
  guard (d.isNamed "Register".toList)
  let scope ← d.attribute? "TagPrefix".toList
  let name ← d.attribute? "TagName".toList
  let file ← d.attribute? "Src".toList
  return ⟨scope, name, Path.resolve site.path file⟩

def directive (site : Site) (d : Directive) : Findings :=
  let directive : PageDirective :=
    ⟨d.name, d.attributes.map fun a => (a.name, a.value.asText), site.locate d.place.span⟩
  { directives := [directive], registrations := (site.registration? directive).toList }

def scriptLines (site : Site) (offset : Nat) : List Text → List ScriptLine
  | [] => []
  | line :: lines =>
    let text := line.stripReturn
    ⟨text, site.locate (Fragment.span ⟨offset, text⟩)⟩ ::
      scriptLines site (offset + line.byteLength + 1) lines

def script (site : Site) (children : List Node) (span : Span) : Script :=
  let lines := children.flatMap fun
    | .literal place => site.scriptLines place.offset (place.text.split '\n')
    | _ => []
  ⟨lines, site.locate span⟩

/-- The literal that closes plain markup: its closing tag, or an empty-width one at the end. -/
def closingLiteral (site : Site) (tag : Tag) (closing : Closing) (stop : Nat) : List Control :=
  match closing with
  | .closed place => [site.literal place]
  | .endOfInput =>
    [.literal (['<', '/'] ++ tag.name ++ ['>']) (site.locate (Span.empty stop))]
  | _ => []

def unknownControl (site : Site) (tag : Tag) : PageError :=
  ⟨"Unknown web control: ".toList ++ tag.scope?.getD [] ++ ':' :: tag.localName,
    site.locate tag.opening.span⟩

def missingPlaceholder (site : Site) (tag : Tag) : PageError :=
  ⟨tag.name ++ " is missing the ContentPlaceHolderID attribute".toList,
    site.locate tag.opening.span⟩

def placeholderType : QualifiedName :=
  .ofText "System.Web.UI.WebControls.ContentPlaceHolder".toList

/-- The data type of a sub-element that is an assignment to a property of the control around it. -/
def promoted? (info : Option ControlInfo) (tag : Tag) : Option DataType := do
  let info ← info
  guard (info.childrenAsProperties && tag.scope?.isNone)
  info.dataType? tag.localName

/-- The type of a property's value: the declared one, or else the name of the property. -/
def propertyType (tag : Tag) (dataType : DataType) : QualifiedName :=
  match dataType.key with
  | some key => .ofText key
  | none => ⟨[], tag.localName⟩

mutual

def visit (site : Site) (registered : UserControls) : Node → Option Control × Findings
  | .directive d => (none, site.directive d)
  | .literal place => (some (site.literal place), {})
  | .code .encode code place => (some (.code code (site.locate place.span)), {})
  | .code _ _ _ => (none, {})
  | .binding _ _ _ => (none, {})
  | .element tag closing children =>
    let span := Node.span (.element tag closing children)
    if !tag.isServer then
      let (controls, found) := visitAll site registered children
      let (siblings, clash) := gather false
        (site.literal tag.opening :: controls ++ site.closingLiteral tag closing span.stop)
      (some (.root siblings), found ++ clash)
    else
      match Resolution.of site.lookup registered tag with
      | .content =>
        match tag.given? "ContentPlaceHolderID".toList with
        | none => (none, { errors := [site.missingPlaceholder tag] })
        | some placeholder =>
          let (controls, found) := visitAll site registered children
          let (siblings, clash) := gather false controls
          let template : Template := ⟨tag.id?, placeholder, siblings, site.locate span⟩
          (none, { templates := [template] } ++ found ++ clash)
      | .placeholder id =>
        let info := tag.scope?.bind fun scope => site.lookup scope tag.localName
        let (properties, controls, found) := visitMembers site registered info children
        let (siblings, clash) := gather false controls
        (some (.typed (site.head tag span placeholderType info) properties siblings),
          { placeholders := [id] } ++ found ++ clash)
      | .known info =>
        let (properties, controls, found) := visitMembers site registered (some info) children
        let (siblings, clash) := gather false controls
        (some (.typed (site.head tag span info.typeName (some info)) properties siblings),
          found ++ clash)
      | .user typeName | .html typeName =>
        let (controls, found) := visitAll site registered children
        let (siblings, clash) := gather false controls
        (some (.typed (site.head tag span typeName none) [] siblings), found ++ clash)
      | .script => (none, { scripts := [site.script children span] })
      | .unknown => (none, { errors := [site.unknownControl tag] })

/-- The controls of some nodes, not yet merged, and the findings in them. -/
def visitAll (site : Site) (registered : UserControls) : List Node → List Control × Findings
  | [] => ([], {})
  | node :: nodes =>
    let (control, found) := visit site registered node
    let (controls, more) :=
      visitAll site (UserControls.extend registered found.registrations) nodes
    (control.toList ++ controls, found ++ more)

/-- What is inside a control: the properties that sub-elements assign, the other controls, not yet
merged, and the findings. -/
def visitMembers (site : Site) (registered : UserControls) (info : Option ControlInfo) :
    List Node → List Control × List Control × Findings
  | [] => ([], [], {})
  | node :: nodes =>
    let member : Option Control × Option Control × Findings :=
      match node with
      | .element tag closing children =>
        match promoted? info tag with
        | some dataType =>
          let span := Node.span (.element tag closing children)
          let (controls, found) := visitAll site registered children
          let (siblings, clash) := gather (dataType.kind != .template) controls
          let value : Control :=
            .typed (site.head tag span (propertyType tag dataType) none) [] siblings
          (some (.property tag.localName value (site.locate span)), none, found ++ clash)
        | none => (none, visit site registered (.element tag closing children))
      | node => (none, visit site registered node)
    let (property, control, found) := member
    let (properties, controls, more) :=
      visitMembers site (UserControls.extend registered found.registrations) info nodes
    (property.toList ++ properties, control.toList ++ controls, found ++ more)

end

end Site

end ServerPages
