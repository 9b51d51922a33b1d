import ServerPages.Proofs.TagCode

/-! What the builder does to the nesting of elements, told apart from all else it keeps. A shape is the
tags that are open and the server elements that have ended; each step of the builder acts on it alone,
so the server elements of a page can be followed through a machine without a tree. -/

namespace ServerPages

namespace Tag

def ofLexeme (name : Text) (attributes place : Fragment) : Tag :=
  ⟨name, (Builder.separate (Attribute.ofTag attributes)).1, place,
    (Attribute.ofTag attributes).any fun a =>
      a.name.same "runat".toList && a.value.asText.same "server".toList⟩

/-- What is read of a plain tag with inline code; it counts as text. -/
def textPart? (tag : Tag) : Option Text :=
  if tag.isServer then none else Builder.beforeCode? tag.opening.text

/-- an element with its end, for server elements -/
def served (tag : Tag) (closing : Closing) : List (Tag × Closing) :=
  if tag.isServer then [(tag, closing)] else []

theorem served_of_plain {tag : Tag} (h : tag.isServer = false) (closing : Closing) :
    tag.served closing = [] := by
  simp [served, h]

end Tag

namespace Token

/-- What is read of a lexeme. -/
def read (place : Fragment) (token : Token) : Text :=
  match token with
  | .openTag name attributes _ =>
    ((Tag.ofLexeme name ⟨token.innerOffset place.offset, attributes⟩ place).textPart?).getD place.text
  | _ => place.text

end Token

/-- The nesting of a page so far. -/
structure Shape where
  /-- the tags of the open elements, the innermost first -/
  tags : List Tag
  /-- the server elements that have ended, the first one first -/
  served : List (Tag × Closing)
  deriving DecidableEq

namespace Shape

/-- What is left open and what has ended when the innermost elements up to the one named `name`
close. -/
def closed (name : Text) (place : Fragment) : List Tag → List Tag × List (Tag × Closing)
  | [] => ([], [])
  | tag :: outer =>
    if tag.name.same name then (outer, tag.served (.closed place))
    else ((closed name place outer).1, tag.served .unclosed ++ (closed name place outer).2)

def close (σ : Shape) (name : Text) (place : Fragment) : Shape :=
  if σ.tags.any (·.name.same name) then
    ⟨(closed name place σ.tags).1, σ.served ++ (closed name place σ.tags).2⟩
  else σ

def enter (σ : Shape) (tag : Tag) : Shape := { σ with tags := tag :: σ.tags }

def serve (σ : Shape) (tag : Tag) (closing : Closing) : Shape :=
  { σ with served := σ.served ++ tag.served closing }

def openTag (σ : Shape) (tag : Tag) (selfClosing : Bool) : Shape :=
  if tag.textPart?.isSome then σ
  else if selfClosing || Builder.isVoid tag then σ.serve tag .selfClosing
  else σ.enter tag

def handle (σ : Shape) (token : Token) (place : Fragment) : Shape :=
  match token with
  | .openTag name attributes selfClosing =>
    σ.openTag (Tag.ofLexeme name ⟨token.innerOffset place.offset, attributes⟩ place) selfClosing
  | .closeTag name | .runatOnClosingTag name => σ.close name place
  | _ => σ

def rawRun (σ : Shape) (t : Text) : Text :=
  match σ.tags with
  | tag :: _ => if Builder.isRaw tag then rawText tag.name (!tag.runatServer) t else []
  | [] => []

def step (σ : Shape) (offset : Nat) (t : Text) : Shape × Text :=
  match σ.rawRun t with
  | [] =>
    let lexeme := Lexeme.scan t
    (σ.handle lexeme.token ⟨offset, lexeme.text⟩, lexeme.token.read ⟨offset, lexeme.text⟩)
  | raw => (σ, raw)

def finish (σ : Shape) : List (Tag × Closing) := σ.served ++ σ.tags.flatMap (·.served .endOfInput)

end Shape

namespace Event

def served : Event → List (Tag × Closing)
  | .leave tag closing _ => tag.served closing
  | _ => []

end Event

namespace Builder

def shape (b : Builder) : Shape := ⟨b.stack.map (·.tag), b.walk.flatMap Event.served⟩

variable {b : Builder}

@[simp] theorem shape_note (reports : List Problem) : (b.note reports).shape = b.shape := rfl

theorem shape_report (defect : Defect) (span : Span) : (b.report defect span).shape = b.shape := rfl

theorem shape_push (node : Node) :
    (b.push node).shape =
      { b.shape with served := b.shape.served ++ (node.walk b.parent?).flatMap Event.served } := by
  have htags : (b.push node).stack.map (·.tag) = b.stack.map (·.tag) := by
    unfold push
    split <;> simp_all
  simp [shape, htags, walk_push]

theorem shape_pushLiteral (place : Fragment) : (b.pushLiteral place).shape = b.shape := by
  unfold pushLiteral
  split
  · rfl
  · simp [shape_push, Node.walk, Event.served]

theorem shape_reportRepeated (repeated : List Attribute) : (b.reportRepeated repeated).shape = b.shape := by
  rw [reportRepeated_eq, shape_note]

theorem shape_reportCode (attributes : List Attribute) : (b.reportCode attributes).shape = b.shape := by
  rw [reportCode_eq, shape_note]

theorem shape_leave {frame : Frame} {outer : List Frame} (h : b.stack = frame :: outer)
    (closing : Closing) : (b.leave frame outer closing).shape =
      ⟨outer.map (·.tag), b.shape.served ++ frame.tag.served closing⟩ := by
  have htags : (b.leave frame outer closing).shape.tags = outer.map (·.tag) := by
    rw [leave, shape_push]
    rfl
  have hserved : (b.leave frame outer closing).shape.served =
      b.shape.served ++ frame.tag.served closing := by
    simp [shape, walk_leave h, Event.served]
  rw [← htags, ← hserved]

theorem shape_closeInner {frame : Frame} {outer : List Frame} (h : b.stack = frame :: outer)
    (closing : Closing) : (b.closeInner closing).shape =
      ⟨outer.map (·.tag), b.shape.served ++ frame.tag.served closing⟩ := by
  rw [closeInner_eq h, shape_leave (by exact h)]
  rfl

theorem shape_closeThrough (name : Text) (place : Fragment) (h : b.stack.any (·.tag.name.same name) = true) :
    (b.closeThrough name place).shape =
      ⟨(Shape.closed name place b.shape.tags).1,
        b.shape.served ++ (Shape.closed name place b.shape.tags).2⟩ := by
  fun_induction closeThrough b name place with
  | case1 b hs => simp [hs] at h
  | case2 b frame outer hs hname =>
    have htags : b.shape.tags = frame.tag :: outer.map (·.tag) := by simp [shape, hs]
    rw [htags, Shape.closed, if_pos hname]
    exact shape_leave hs _
  | case3 b frame outer hs hname ih =>
    have htags : b.shape.tags = frame.tag :: outer.map (·.tag) := by simp [shape, hs]
    have hinner := shape_closeInner hs .unclosed
    have hany : (b.closeInner .unclosed).stack.any (·.tag.name.same name) = true := by
      have houter : (b.closeInner .unclosed).stack.map (·.tag) = outer.map (·.tag) :=
        congrArg Shape.tags hinner
      rw [hs, List.any_cons, Bool.eq_false_iff.2 hname, Bool.false_or] at h
      have hmap : ∀ frames : List Frame, frames.any (·.tag.name.same name) =
          (frames.map (·.tag)).any (·.name.same name) := by simp [List.any_map, Function.comp_def]
      rwa [hmap, houter, ← hmap]
    rw [ih hany, htags, Shape.closed, if_neg hname, hinner]
    simp

theorem shape_closeTag (name : Text) (place : Fragment) :
    (b.closeTag name place).shape = b.shape.close name place := by
  have hany : b.shape.tags.any (·.name.same name) = b.stack.any (·.tag.name.same name) := by
    simp [shape, List.any_map, Function.comp_def]
  unfold closeTag Shape.close
  rw [hany]
  split
  · next h => exact shape_closeThrough name place h
  · split
    · exact shape_report _ _
    · exact shape_pushLiteral _

theorem shape_text (place : Fragment) : (b.text place).shape = b.shape := by
  unfold text
  split
  · rw [shape_pushLiteral, shape_report]
  · exact shape_pushLiteral _

theorem shape_directive (body place : Fragment) : (b.directive body place).shape = b.shape := by
  obtain ⟨d, left, repeated, -, -, heq⟩ := b.directive_eq body place
  rw [heq, shape_push, shape_reportRepeated]
  simp [Node.walk, Event.served]

theorem openTag_eq (b : Builder) (name : Text) (attributes : Fragment) (selfClosing : Bool)
    (place : Fragment) : b.openTag name attributes selfClosing place =
      match (Tag.ofLexeme name attributes place).textPart? with
      | some before => (b.pushLiteral ⟨place.offset, before⟩, before)
      | none =>
        let tag := Tag.ofLexeme name attributes place
        let b := (b.reportRepeated (separate (Attribute.ofTag attributes)).2).reportCode tag.attributes
        if selfClosing || isVoid tag then (b.push (.element tag .selfClosing []), place.text)
        else ({ b with stack := ⟨tag, []⟩ :: b.stack }, place.text) := rfl

theorem shape_enter (b : Builder) (tag : Tag) :
    { b with stack := ⟨tag, []⟩ :: b.stack : Builder }.shape = b.shape.enter tag := by
  simp [shape, walk_enter, Shape.enter, Event.served]

theorem shape_openTag (name : Text) (attributes : Fragment) (selfClosing : Bool) (place : Fragment) :
    (b.openTag name attributes selfClosing place).1.shape =
      b.shape.openTag (Tag.ofLexeme name attributes place) selfClosing ∧
    (b.openTag name attributes selfClosing place).2 =
      ((Tag.ofLexeme name attributes place).textPart?).getD place.text := by
  rw [openTag_eq, Shape.openTag]
  cases (Tag.ofLexeme name attributes place).textPart? with
  | some before => exact ⟨shape_pushLiteral _, rfl⟩
  | none =>
    have hreported : ((b.reportRepeated (separate (Attribute.ofTag attributes)).2).reportCode
        (Tag.ofLexeme name attributes place).attributes).shape = b.shape := by
      rw [shape_reportCode, shape_reportRepeated]
    simp only [Option.isSome_none, Bool.false_eq_true, if_false, Option.getD_none]
    split
    · refine ⟨?_, rfl⟩
      rw [shape_push, hreported]
      simp [Shape.serve, Node.walk, Node.walkAll, Event.served]
    · exact ⟨by rw [shape_enter, hreported], rfl⟩

theorem shape_handle (token : Token) (place : Fragment) :
    (b.handle token place).1.shape = b.shape.handle token place ∧
      (b.handle token place).2 = token.read place := by
  cases token with
  | comment => exact ⟨rfl, rfl⟩
  | directive body => exact ⟨shape_directive _ _, rfl⟩
  | code kind code => exact ⟨by simp [handle, shape_push, Node.walk, Event.served, Shape.handle], rfl⟩
  | binding expression encode =>
    exact ⟨by simp [handle, shape_push, Node.walk, Event.served, Shape.handle], rfl⟩
  | openTag name attributes selfClosing => exact shape_openTag _ _ _ _
  | closeTag name => exact ⟨shape_closeTag _ _, rfl⟩
  | text => exact ⟨shape_text _, rfl⟩
  | unterminatedComment => exact ⟨shape_report _ _, rfl⟩
  | unterminatedDirective => exact ⟨shape_report _ _, rfl⟩
  | unterminatedCode => exact ⟨shape_pushLiteral _, rfl⟩
  | malformedServerTag name => exact ⟨shape_pushLiteral _, rfl⟩
  | runatOnClosingTag name => exact ⟨shape_closeTag _ _, rfl⟩

theorem shape_rawRun (b : Builder) (t : Text) : b.shape.rawRun t = b.rawRun t := by
  unfold Shape.rawRun rawRun shape
  cases b.stack <;> rfl

/-- A step of the builder is one of its shape. -/
theorem shape_step (b : Builder) (offset : Nat) (t : Text) :
    (b.step offset t).1.shape = (b.shape.step offset t).1 ∧
      (b.step offset t).2 = (b.shape.step offset t).2 := by
  unfold step Shape.step
  rw [shape_rawRun]
  cases b.rawRun t with
  | nil => exact shape_handle _ _
  | cons c raw => exact ⟨shape_pushLiteral _, rfl⟩

end Builder

namespace Shape

theorem read_step_ne_nil (σ : Shape) (offset : Nat) {t : Text} (h : t ≠ []) :
    (σ.step offset t).2 ≠ [] := by
  unfold step
  cases σ.rawRun t with
  | nil =>
    have hread : (Builder.empty.handle (Lexeme.scan t).token ⟨offset, (Lexeme.scan t).text⟩).2 ≠ [] :=
      Builder.read_handle_ne_nil (Lexeme.text_scan_ne_nil h)
    rwa [(Builder.shape_handle _ _).2] at hread
  | cons c raw => simp

/-- All steps from `offset` to the end of `t`. -/
def run (σ : Shape) (offset : Nat) (t : Text) : Shape :=
  if _h : t = [] then σ
  else
    let next := σ.step offset t
    run next.1 (offset + next.2.byteLength) (t.drop next.2.length)
termination_by t.length
decreasing_by
  have := List.length_pos_iff.2 (σ.read_step_ne_nil offset ‹_›)
  have := List.length_pos_iff.2 ‹¬ t = []›
  simp only [List.length_drop]
  omega

@[simp] theorem run_nil (σ : Shape) (offset : Nat) : σ.run offset [] = σ := by rw [run, dif_pos rfl]

theorem run_of_ne_nil (σ : Shape) (offset : Nat) {t : Text} (h : t ≠ []) :
    σ.run offset t = (σ.step offset t).1.run (offset + (σ.step offset t).2.byteLength)
      (t.drop (σ.step offset t).2.length) := by
  conv => lhs; rw [run, dif_neg h]

end Shape

namespace Builder

theorem shape_run (b : Builder) (offset : Nat) (t : Text) :
    (b.run offset t).shape = b.shape.run offset t := by
  fun_induction run b offset t with
  | case1 b offset => rw [Shape.run_nil]
  | case2 b offset t ht next ih =>
    obtain ⟨hshape, hread⟩ := b.shape_step offset t
    rw [Shape.run_of_ne_nil _ _ ht, ← hshape, ← hread]
    exact ih

/-- At the end of the page all that is open ends, the innermost first. -/
theorem shape_closeAll (b : Builder) : b.closeAll.shape = ⟨[], b.shape.finish⟩ := by
  obtain ⟨hfinish, hstack⟩ := closeAll_induction (P := fun c => c.shape.finish = b.shape.finish)
    (fun c frame outer hc hs => by
      rw [← hc, shape_closeInner hs]
      simp [Shape.finish, shape, hs]) rfl
  have htags : b.closeAll.shape.tags = [] := by simp [shape, hstack]
  rw [Shape.finish, htags, List.flatMap_nil, List.append_nil] at hfinish
  rw [← hfinish, ← htags]

end Builder

namespace Node

def served : Node → List (Tag × Closing)
  | .element tag closing _ => tag.served closing
  | _ => []

/-- The server elements among some nodes and inside them, the inner ones first, each with its end. -/
def servers (nodes : List Node) : List (Tag × Closing) := (withinAll nodes).flatMap served

theorem servers_eq_walk (nodes : List Node) :
    servers nodes = (walkAll none nodes).flatMap Event.served := by
  rw [servers, withinAll_eq_walk none]
  induction walkAll none nodes with
  | nil => rfl
  | cons event events ih =>
    rw [List.flatMap_cons, ← ih]
    cases event with
    | enter tag => rfl
    | pass parent node => cases node <;> rfl
    | leave tag closing children => rfl

end Node

theorem walk_parse (source : Text) :
    Node.walkAll none (parse source).nodes = (Builder.empty.run 0 source).closeAll.walk := by
  have hstack : (Builder.empty.run 0 source).closeAll.stack = [] := (Builder.codeStep_closeAll _).2
  rw [parse, Builder.walk, hstack]
  simp

/-- What is walked while the page is read is part of the walk through its tree. -/
theorem mem_walkAll_parse {source : Text} {event : Event} (h : event ∈ (Builder.empty.run 0 source).walk) :
    event ∈ Node.walkAll none (parse source).nodes := by
  obtain ⟨-, events, -, hwalk, -⟩ := (Builder.codeStep_closeAll (Builder.empty.run 0 source)).1
  rw [walk_parse, hwalk]
  exact List.mem_append_left _ h

/-- The server elements of a page are those that end while it is read, and those that are open at the
end of it. -/
theorem servers_parse (source : Text) :
    Node.servers (parse source).nodes = (Builder.empty.run 0 source).shape.finish := by
  rw [Node.servers_eq_walk, walk_parse]
  exact congrArg Shape.served (Builder.empty.run 0 source).shape_closeAll

end ServerPages
