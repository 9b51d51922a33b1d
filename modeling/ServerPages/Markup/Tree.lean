import ServerPages.Markup.Directive
import ServerPages.Markup.Node
import ServerPages.Markup.Problem

/-! Building the raw tree. Open elements wait on a stack for their closing tags; every lexeme moves
the builder one step, and what is malformed is reported while the rest of the page is still read.
Inside `script` and `style` text is raw. -/

namespace ServerPages

/-- An open element and the children read for it so far, the latest first. -/
structure Frame where
  tag : Tag
  children : List Node

structure Builder where
  /-- open elements, the innermost first -/
  stack : List Frame
  /-- top-level nodes, the latest first -/
  top : List Node
  /-- problems, the latest first -/
  problems : List Problem

structure Parsed where
  nodes : List Node
  problems : List Problem

namespace Builder

def empty : Builder := ⟨[], [], []⟩

def report (b : Builder) (defect : Defect) (span : Span) : Builder :=
  { b with problems := ⟨defect, span⟩ :: b.problems }

def push (b : Builder) (node : Node) : Builder :=
  match b.stack with
  | frame :: outer => { b with stack := { frame with children := node :: frame.children } :: outer }
  | [] => { b with top := node :: b.top }

def pushLiteral (b : Builder) (place : Fragment) : Builder :=
  if place.text.isEmpty then b else b.push (.literal place)

def voidElements : List Text :=
  ["area", "base", "br", "col", "embed", "hr", "img", "input", "link", "meta", "param", "source",
    "track", "wbr"].map String.toList

def rawElements : List Text := ["script", "style"].map String.toList

def isRaw (tag : Tag) : Bool := tag.scope?.isNone && rawElements.any tag.isNamed

def isVoid (tag : Tag) : Bool := tag.scope?.isNone && voidElements.any tag.isNamed

/-- The attributes whose names occur for the first time, and the others. -/
def separate (attributes : List Attribute) : List Attribute × List Attribute :=
  let (kept, repeated) := attributes.foldl
    (fun (kept, repeated) a =>
      if kept.any (·.name.same a.name) then (kept, a :: repeated) else (a :: kept, repeated))
    (([], []) : List Attribute × List Attribute)
  (kept.reverse, repeated.reverse)

def reportRepeated (b : Builder) (repeated : List Attribute) : Builder :=
  repeated.foldl (fun b a => b.report (.duplicateAttribute a.name) a.place.span) b

/-- whether a literal value holds a code block; a `<%$` expression is none -/
def hasCode (value : Text) : Bool :=
  value.holds ['<', '%'] && (value.trimStart.after? ['<', '%', '$']).isNone

def reportCode (b : Builder) (attributes : List Attribute) : Builder :=
  attributes.foldl (fun b a =>
    match a.value with
    | .text value =>
      if hasCode value then b.report (.codeInServerTag a.name) a.place.span else b
    | _ => b) b

def closeInner (b : Builder) (closing : Closing) : Builder :=
  match b.stack with
  | [] => b
  | frame :: outer =>
    let b := { b with stack := outer }
    let b :=
      if frame.tag.isServer then b.report (.unclosedTag frame.tag.name) frame.tag.opening.span
      else b
    b.push (.element frame.tag closing frame.children.reverse)

/-- The innermost elements up to the one named `name` close, that one by the tag at `place`. -/
def closeThrough (b : Builder) (name : Text) (place : Fragment) : Builder :=
  match _h : b.stack with
  | [] => b
  | frame :: outer =>
    if frame.tag.name.same name then
      { b with stack := outer }.push (.element frame.tag (.closed place) frame.children.reverse)
    else closeThrough (b.closeInner .unclosed) name place
termination_by b.stack.length
decreasing_by
  simp only [closeInner, ‹b.stack = _›, report, push]
  repeat' split
  all_goals simp_all

/-- A closing tag: it closes the innermost open element of its name. One that closes nothing is a
problem if it has a prefix, and text otherwise. -/
def closeTag (b : Builder) (name : Text) (place : Fragment) : Builder :=
  if b.stack.any (·.tag.name.same name) then b.closeThrough name place
  else if name.contains ':' then b.report (.unexpectedClosingTag name) place.span
  else b.pushLiteral place

def closeAll (b : Builder) : Builder := b.stack.foldl (fun b _ => b.closeInner .endOfInput) b

def text (b : Builder) (place : Fragment) : Builder :=
  let b :=
    match strayEnd? place.text with
    | some at_ => b.report .strayEnd ⟨place.offset + at_, place.offset + at_ + 2⟩
    | none => b
  b.pushLiteral place

def defaultDirective : Text := "Page".toList

def directive (b : Builder) (body : Fragment) (place : Fragment) : Builder :=
  let body := DirectiveBody.read body
  let name := body.name.getD defaultDirective
  let b :=
    match body.leftover with
    | some leftover => b.report (.malformedDirective leftover.text) leftover.span
    | none => b
  let b :=
    match b.stack with
    | frame :: _ => b.report (.nestedDirective name frame.tag.name) place.span
    | [] => b
  let (kept, repeated) := separate body.attributes
  (b.reportRepeated repeated).push (.directive ⟨name, kept, place⟩)

/-- The part of a tag in front of its first code block; no tag starts with one. -/
def beforeCode? : Text → Option Text
  | [] => none
  | c :: t => (Text.cut? t ['<', '%']).map fun (before, _) => c :: before

/-- An opening tag, and how much of it is read: a plain tag with inline code counts only as text up
to the code. -/
def openTag (b : Builder) (name : Text) (attributes : Fragment) (selfClosing : Bool)
    (place : Fragment) : Builder × Text :=
  let all := Attribute.ofTag attributes
  let runat := all.any fun a =>
    a.name.same "runat".toList && a.value.asText.same "server".toList
  let (kept, repeated) := separate all
  let tag : Tag := ⟨name, kept, place, runat⟩
  match if tag.isServer then none else beforeCode? place.text with
  | some before => (b.pushLiteral ⟨place.offset, before⟩, before)
  | none =>
    let b := (b.reportRepeated repeated).reportCode kept
    if selfClosing || isVoid tag then (b.push (.element tag .selfClosing []), place.text)
    else ({ b with stack := ⟨tag, []⟩ :: b.stack }, place.text)

/-- One lexeme goes into the tree; the text of it that is read. -/
def handle (b : Builder) (token : Token) (place : Fragment) : Builder × Text :=
  match token with
  | .comment => (b, place.text)
  | .directive body => (b.directive ⟨token.innerOffset place.offset, body⟩ place, place.text)
  | .code kind code => (b.push (.code kind code place), place.text)
  | .binding expression encode => (b.push (.binding expression encode place), place.text)
  | .openTag name attributes selfClosing =>
    b.openTag name ⟨token.innerOffset place.offset, attributes⟩ selfClosing place
  | .closeTag name => (b.closeTag name place, place.text)
  | .text => (b.text place, place.text)
  | .unterminatedComment => (b.report .unterminatedComment place.span, place.text)
  | .unterminatedDirective => (b.report .unterminatedDirective place.span, place.text)
  | .unterminatedCode => ((b.report .unterminatedCode place.span).pushLiteral place, place.text)
  | .malformedServerTag name =>
    ((b.report (.malformedServerTag name) place.span).pushLiteral place, place.text)
  | .runatOnClosingTag name =>
    ((b.report (.runatOnClosingTag name) place.span).closeTag name place, place.text)

/-- The raw text to read next, empty outside raw elements. -/
def rawRun (b : Builder) (t : Text) : Text :=
  match b.stack with
  | frame :: _ => if isRaw frame.tag then rawText frame.tag.name (!frame.tag.runatServer) t else []
  | [] => []

/-- One step at `offset`, in front of `t`; the text that is read. -/
def step (b : Builder) (offset : Nat) (t : Text) : Builder × Text :=
  match b.rawRun t with
  | [] =>
    let lexeme := Lexeme.scan t
    b.handle lexeme.token ⟨offset, lexeme.text⟩
  | raw => (b.pushLiteral ⟨offset, raw⟩, raw)

theorem read_handle_ne_nil {b : Builder} {token : Token} {place : Fragment}
    (h : place.text ≠ []) : (b.handle token place).2 ≠ [] := by
  unfold handle
  split
  all_goals try exact h
  simp only [openTag]
  split
  · next before hcode =>
    split at hcode
    · simp at hcode
    · cases ht : place.text with
      | nil => exact absurd ht h
      | cons c t =>
        simp only [ht, beforeCode?, Option.map_eq_some_iff] at hcode
        obtain ⟨_, _, rfl⟩ := hcode
        simp
  · split <;> exact h

theorem read_step_ne_nil (b : Builder) (offset : Nat) {t : Text} (h : t ≠ []) :
    (b.step offset t).2 ≠ [] := by
  unfold step
  split
  · exact read_handle_ne_nil (Lexeme.text_scan_ne_nil h)
  · next hraw => exact hraw

def run (b : Builder) (offset : Nat) (t : Text) : Builder :=
  if _h : t = [] then b
  else
    let next := b.step offset t
    run next.1 (offset + next.2.byteLength) (t.drop next.2.length)
termination_by t.length
decreasing_by
  have := List.length_pos_iff.2 (read_step_ne_nil b offset ‹_›)
  have := List.length_pos_iff.2 ‹¬ t = []›
  simp only [List.length_drop]
  omega

end Builder

def parse (source : Text) : Parsed :=
  let b := (Builder.empty.run 0 source).closeAll
  ⟨b.top.reverse, b.problems.reverse⟩

end ServerPages
