import ServerPages.Proofs.Nesting
import ServerPages.Proofs.Shape
import ServerPages.Proofs.Tiling

/-! Where everything in the tree of a page and among its problems comes from. A step remarks on what it
reads and then has one effect on the tree at most. So every node goes back to the step that read it, and
every problem to the step that remarked on it, but for unclosed tags, which are found when elements end. -/

namespace ServerPages

/-- What a step does to the tree. -/
inductive Effect where
  | nothing
  | add (node : Node)
  | enter (tag : Tag)
  | close (name : Text) (place : Fragment)

def Event.isLeave : Event → Bool
  | .leave _ _ _ => true
  | _ => false

namespace Effect

def seen (parent : Option Tag) : Effect → List Event
  | .add node => (node.walk parent).filter (!·.isLeave)
  | .enter tag => [.enter tag]
  | .nothing | .close _ _ => []

end Effect

/-- A plain tag with inline code is text up to the code; other tags give elements. -/
def Tag.effect (tag : Tag) (selfClosing : Bool) : Effect :=
  match tag.textPart? with
  | some before => .add (.literal ⟨tag.opening.offset, before⟩)
  | none =>
    if selfClosing || Builder.isVoid tag then .add (.element tag .selfClosing []) else .enter tag

def Attribute.repetition (a : Attribute) : Problem := ⟨.duplicateAttribute a.name, a.place.span⟩

def Directive.ofLexeme (body place : Fragment) : Directive :=
  ⟨(DirectiveBody.read body).name.getD Builder.defaultDirective,
    (Builder.separate (DirectiveBody.read body).attributes).1, place⟩

namespace Builder

variable {b : Builder}

/-- What is wrong with a directive: its text, its place, its attributes. -/
def directiveRemarks (b : Builder) (body place : Fragment) : List Problem :=
  (DirectiveBody.read body).leftover.toList.map
      (fun leftover => ⟨.malformedDirective leftover.text, leftover.span⟩) ++
    b.parent?.toList.map (fun parent =>
      ⟨.nestedDirective (Directive.ofLexeme body place).name parent.name, place.span⟩) ++
    (separate (DirectiveBody.read body).attributes).2.map Attribute.repetition

def closes (b : Builder) (name : Text) : Bool := b.stack.any (·.tag.name.same name)

def closingRemarks (b : Builder) (name : Text) (place : Fragment) : List Problem :=
  if !b.closes name && name.contains ':' then [⟨.unexpectedClosingTag name, place.span⟩] else []

def closing (b : Builder) (name : Text) (place : Fragment) : Effect :=
  if b.closes name then .close name place
  else if name.contains ':' then .nothing
  else .add (.literal place)

/-- The problems of a lexeme in the order in which they are reported. -/
def remarks (b : Builder) (token : Token) (place : Fragment) : List Problem :=
  match token with
  | .comment | .code _ _ | .binding _ _ => []
  | .directive body => b.directiveRemarks ⟨token.innerOffset place.offset, body⟩ place
  | .openTag name attributes _ =>
    let attributes : Fragment := ⟨token.innerOffset place.offset, attributes⟩
    let tag := Tag.ofLexeme name attributes place
    if tag.textPart?.isSome then []
    else (separate (Attribute.ofTag attributes)).2.map Attribute.repetition ++ tag.codeReports
  | .closeTag name => b.closingRemarks name place
  | .text =>
    (strayEnd? place.text).toList.map fun at_ =>
      ⟨.strayEnd, ⟨place.offset + at_, place.offset + at_ + 2⟩⟩
  | .unterminatedComment => [⟨.unterminatedComment, place.span⟩]
  | .unterminatedDirective => [⟨.unterminatedDirective, place.span⟩]
  | .unterminatedCode => [⟨.unterminatedCode, place.span⟩]
  | .malformedServerTag name => [⟨.malformedServerTag name, place.span⟩]
  | .runatOnClosingTag name => ⟨.runatOnClosingTag name, place.span⟩ :: b.closingRemarks name place

def effect (b : Builder) (token : Token) (place : Fragment) : Effect :=
  match token with
  | .comment | .unterminatedComment | .unterminatedDirective => .nothing
  | .directive body => .add (.directive (.ofLexeme ⟨token.innerOffset place.offset, body⟩ place))
  | .code kind code => .add (.code kind code place)
  | .binding expression encode => .add (.binding expression encode place)
  | .openTag name attributes selfClosing =>
    (Tag.ofLexeme name ⟨token.innerOffset place.offset, attributes⟩ place).effect selfClosing
  | .closeTag name | .runatOnClosingTag name => b.closing name place
  | .text | .unterminatedCode | .malformedServerTag _ => .add (.literal place)

theorem closing_cases (b : Builder) (name : Text) (place : Fragment) :
    b.closing name place = .close name place ∨ b.closing name place = .nothing ∨
      b.closing name place = .add (.literal place) := by
  unfold closing
  split
  · exact .inl rfl
  · split
    · exact .inr (.inl rfl)
    · exact .inr (.inr rfl)

def perform (b : Builder) : Effect → Builder
  | .nothing => b
  | .add node => b.push node
  | .enter tag => { b with stack := ⟨tag, []⟩ :: b.stack }
  | .close name place => b.closeThrough name place

theorem pushLiteral_eq {place : Fragment} (h : place.text ≠ []) :
    b.pushLiteral place = b.push (.literal place) := by
  rw [pushLiteral, if_neg (by simpa using h)]

theorem closeTag_eq (name : Text) {place : Fragment} (h : place.text ≠ []) :
    b.closeTag name place =
      (b.note (b.closingRemarks name place)).perform (b.closing name place) := by
  unfold closeTag closingRemarks closing closes
  cases b.stack.any (·.tag.name.same name) with
  | true => rfl
  | false =>
    cases name.contains ':' with
    | true => rfl
    | false => exact pushLiteral_eq h

theorem reportRepeated_note (repeated : List Attribute) :
    b.reportRepeated repeated = b.note (repeated.map Attribute.repetition).reverse :=
  reportRepeated_eq b repeated

theorem directive_note (body place : Fragment) : b.directive body place =
    (b.note (b.directiveRemarks body place).reverse).push (.directive (.ofLexeme body place)) := by
  obtain ⟨stack, top, problems⟩ := b
  unfold directive directiveRemarks
  cases hleft : (DirectiveBody.read body).leftover <;> cases stack <;>
    simp [hleft, reportRepeated_note, note, report, parent?, Directive.ofLexeme]

theorem openTag_note (name : Text) (attributes : Fragment) (selfClosing : Bool) {place : Fragment}
    (h : place.text ≠ []) :
    let tag := Tag.ofLexeme name attributes place
    (b.openTag name attributes selfClosing place).1 = (b.note (if tag.textPart?.isSome then [] else
      (separate (Attribute.ofTag attributes)).2.map Attribute.repetition ++
        tag.codeReports).reverse).perform (tag.effect selfClosing) := by
  intro tag
  rw [openTag_eq, Tag.effect]
  cases hpart : tag.textPart? with
  | some before =>
    have hbefore : before ≠ [] := by
      unfold Tag.textPart? at hpart
      split at hpart
      · cases hpart
      · obtain ⟨c, t, ht⟩ := List.exists_cons_of_ne_nil (show tag.opening.text ≠ [] from h)
        rw [ht] at hpart
        obtain ⟨_, _, rfl⟩ := Option.map_eq_some_iff.1 hpart
        simp
    exact pushLiteral_eq hbefore
  | none =>
    simp only [reportRepeated_note, reportCode_eq, note_note, ← List.reverse_append]
    split <;> rfl

/-- A step that reads a lexeme remarks on it, and then the tree changes at most once. -/
theorem handle_eq (token : Token) {place : Fragment} (h : place.text ≠ []) :
    (b.handle token place).1 =
      (b.note (b.remarks token place).reverse).perform (b.effect token place) := by
  have hclosing : ∀ name, (b.closingRemarks name place).reverse = b.closingRemarks name place := by
    intro name
    unfold closingRemarks
    split <;> rfl
  cases token with
  | directive body => exact directive_note _ _
  | openTag name attributes selfClosing => exact openTag_note _ _ _ h
  | closeTag name =>
    rw [remarks, hclosing]
    exact closeTag_eq name h
  | text =>
    unfold remarks effect handle text
    cases strayEnd? place.text with
    | none => exact pushLiteral_eq h
    | some at_ => exact pushLiteral_eq h
  | unterminatedCode => exact pushLiteral_eq h
  | malformedServerTag name => exact pushLiteral_eq h
  | runatOnClosingTag name =>
    rw [remarks, List.reverse_cons, hclosing, ← note_note]
    exact closeTag_eq name h
  | _ => rfl

theorem isUnclosedTag_of_mem_remarks {token : Token} {place : Fragment} {p : Problem}
    (h : p ∈ b.remarks token place) : p.defect.isUnclosedTag = false := by
  have hrepeated : ∀ repeated : List Attribute, p ∈ repeated.map Attribute.repetition →
      p.defect.isUnclosedTag = false := by
    intro repeated hp
    obtain ⟨a, -, rfl⟩ := List.mem_map.1 hp
    rfl
  have hclosing : ∀ name, p ∈ b.closingRemarks name place → p.defect.isUnclosedTag = false := by
    intro name hp
    unfold closingRemarks at hp
    split at hp
    · rw [List.mem_singleton.1 hp]
      rfl
    · cases hp
  unfold remarks at h
  split at h
  · cases h
  · cases h
  · cases h
  · simp only [directiveRemarks, List.mem_append, List.mem_map] at h
    rcases h with (⟨_, -, rfl⟩ | ⟨_, -, rfl⟩) | ⟨_, -, rfl⟩ <;> rfl
  · dsimp only at h
    split at h
    · cases h
    · rcases List.mem_append.1 h with h | h
      · exact hrepeated _ h
      · obtain ⟨_, -, rfl⟩ := Tag.exists_of_mem_codeReports h
        rfl
  · exact hclosing _ h
  · obtain ⟨_, -, rfl⟩ := List.mem_map.1 h
    rfl
  · rw [List.mem_singleton.1 h]; rfl
  · rw [List.mem_singleton.1 h]; rfl
  · rw [List.mem_singleton.1 h]; rfl
  · rw [List.mem_singleton.1 h]; rfl
  · rcases List.mem_cons.1 h with rfl | h
    · rfl
    · exact hclosing _ h

/-- Closing elements leaves them, and may report them as unclosed. -/
theorem seen_closeThrough (name : Text) (place : Fragment) :
    (b.closeThrough name place).walk.filter (!·.isLeave) = b.walk.filter (!·.isLeave) ∧
      (b.closeThrough name place).problems.filter (!·.defect.isUnclosedTag) =
        b.problems.filter (!·.defect.isUnclosedTag) := by
  fun_induction closeThrough b name place with
  | case1 b _ => exact ⟨rfl, rfl⟩
  | case2 b frame outer hs _ =>
    have hwalk := walk_leave hs (.closed place)
    rw [leave] at hwalk
    rw [hwalk, push_problems, List.filter_append]
    simp [Event.isLeave]
  | case3 b frame outer hs _ ih =>
    rw [ih.1, ih.2, walk_closeInner hs, problems_closeInner hs, List.filter_append,
      List.filter_append]
    unfold unclosedReports
    split <;> simp [Event.isLeave, Defect.isUnclosedTag]

theorem seen_perform (e : Effect) :
    (b.perform e).walk.filter (!·.isLeave) = b.walk.filter (!·.isLeave) ++ e.seen b.parent? ∧
      (b.perform e).problems.filter (!·.defect.isUnclosedTag) =
        b.problems.filter (!·.defect.isUnclosedTag) := by
  cases e with
  | nothing => simp [perform, Effect.seen]
  | add node => simp [perform, Effect.seen, walk_push]
  | enter tag => simp [perform, Effect.seen, walk_enter, Event.isLeave]
  | close name place => simpa [perform, Effect.seen] using b.seen_closeThrough name place

end Builder

namespace Turn

def lexeme (turn : Turn) : Fragment := ⟨turn.offset, (Lexeme.scan turn.rest).text⟩

def token (turn : Turn) : Token := (Lexeme.scan turn.rest).token

def remarks (turn : Turn) : List Problem :=
  match turn.builder.rawRun turn.rest with
  | [] => turn.builder.remarks turn.token turn.lexeme
  | _ => []

def effect (turn : Turn) : Effect :=
  match turn.builder.rawRun turn.rest with
  | [] => turn.builder.effect turn.token turn.lexeme
  | raw => .add (.literal ⟨turn.offset, raw⟩)

theorem remarks_eq {turn : Turn} (h : turn.builder.rawRun turn.rest = []) :
    turn.remarks = turn.builder.remarks turn.token turn.lexeme := by
  rw [remarks, h]

theorem remarks_of_raw {turn : Turn} (h : turn.builder.rawRun turn.rest ≠ []) :
    turn.remarks = [] := by
  cases hraw : turn.builder.rawRun turn.rest with
  | nil => exact absurd hraw h
  | cons c raw => rw [remarks, hraw]

theorem effect_eq {turn : Turn} (h : turn.builder.rawRun turn.rest = []) :
    turn.effect = turn.builder.effect turn.token turn.lexeme := by
  rw [effect, h]

theorem effect_of_raw {turn : Turn} (h : turn.builder.rawRun turn.rest ≠ []) :
    turn.effect = .add (.literal ⟨turn.offset, turn.builder.rawRun turn.rest⟩) := by
  cases hraw : turn.builder.rawRun turn.rest with
  | nil => exact absurd hraw h
  | cons c raw => rw [effect, hraw]

theorem place_of_raw {turn : Turn} (h : turn.builder.rawRun turn.rest ≠ []) :
    turn.place = ⟨turn.offset, turn.builder.rawRun turn.rest⟩ := by
  cases hraw : turn.builder.rawRun turn.rest with
  | nil => exact absurd hraw h
  | cons c raw => rw [place, Builder.step, hraw]

theorem place_of_lexeme {turn : Turn} (h : turn.builder.rawRun turn.rest = []) :
    turn.place = ⟨turn.offset, turn.token.read turn.lexeme⟩ := by
  rw [place, Builder.step, h]
  exact congrArg (Fragment.mk turn.offset) (Builder.shape_handle _ _).2

def seen (turn : Turn) : List Event := turn.effect.seen turn.builder.parent?

theorem step_eq (turn : Turn) (h : turn.rest ≠ []) :
    (turn.builder.step turn.offset turn.rest).1 =
      (turn.builder.note turn.remarks.reverse).perform turn.effect := by
  unfold Builder.step remarks effect
  cases hraw : turn.builder.rawRun turn.rest with
  | nil => exact Builder.handle_eq _ (Lexeme.text_scan_ne_nil h)
  | cons c raw =>
    have hraw : Fragment.text ⟨turn.offset, c :: raw⟩ ≠ [] := by simp
    exact Builder.pushLiteral_eq hraw

theorem isUnclosedTag_of_mem_remarks {turn : Turn} {p : Problem} (h : p ∈ turn.remarks) :
    p.defect.isUnclosedTag = false := by
  unfold remarks at h
  split at h
  · exact Builder.isUnclosedTag_of_mem_remarks h
  · cases h

end Turn

namespace Builder

variable {b : Builder}

theorem seen_run (offset : Nat) (t : Text) :
    (b.run offset t).walk.filter (!·.isLeave) =
        b.walk.filter (!·.isLeave) ++ (b.turns offset t).flatMap Turn.seen ∧
      (b.run offset t).problems.reverse.filter (!·.defect.isUnclosedTag) =
        b.problems.reverse.filter (!·.defect.isUnclosedTag) ++
          (b.turns offset t).flatMap Turn.remarks := by
  fun_induction turns b offset t with
  | case1 b offset => rw [run]; simp
  | case2 b offset t ht next ih =>
    have hstep := Turn.step_eq ⟨b, offset, t⟩ ht
    have hremarks : (Turn.remarks ⟨b, offset, t⟩).filter (!·.defect.isUnclosedTag) =
        Turn.remarks ⟨b, offset, t⟩ := by
      refine List.filter_eq_self.2 fun p hp => ?_
      simp [Turn.isUnclosedTag_of_mem_remarks hp]
    obtain ⟨hwalk, hproblems⟩ := (b.note (Turn.remarks ⟨b, offset, t⟩).reverse).seen_perform
      (Turn.effect ⟨b, offset, t⟩)
    rw [← hstep] at hwalk hproblems
    rw [run, dif_neg ht]
    simp only [next] at ih ⊢
    rw [ih.1, ih.2, List.filter_reverse, hproblems, hwalk]
    simp [hremarks, List.filter_reverse, Turn.seen]

theorem seen_closeAll :
    (b.closeAll.walk.filter (!·.isLeave) = b.walk.filter (!·.isLeave) ∧
      b.closeAll.problems.filter (!·.defect.isUnclosedTag) =
        b.problems.filter (!·.defect.isUnclosedTag)) := by
  refine (closeAll_induction (P := fun c => c.walk.filter (!·.isLeave) = b.walk.filter (!·.isLeave) ∧
      c.problems.filter (!·.defect.isUnclosedTag) = b.problems.filter (!·.defect.isUnclosedTag))
    ?_ ⟨rfl, rfl⟩).1
  rintro c frame outer ⟨hwalk, hproblems⟩ hs
  rw [walk_closeInner hs, problems_closeInner hs, List.filter_append, List.filter_append, hwalk,
    hproblems]
  unfold unclosedReports
  split <;> simp [Event.isLeave, Defect.isUnclosedTag]

end Builder

/-- What the tree of a page has, is what the steps see. -/
theorem seen_parse (source : Text) :
    (Node.walkAll none (parse source).nodes).filter (!·.isLeave) =
      (turns source).flatMap Turn.seen := by
  rw [walk_parse, Builder.seen_closeAll.1, (Builder.seen_run 0 source).1]
  simp [Builder.walk, Builder.empty, Node.walkAll, turns]

/-- The problems of a page, but for unclosed tags, are what the steps remark on. -/
theorem remarks_parse (source : Text) :
    (parse source).problems.filter (!·.defect.isUnclosedTag) =
      (turns source).flatMap Turn.remarks := by
  rw [parse, List.filter_reverse, Builder.seen_closeAll.2, ← List.filter_reverse,
    (Builder.seen_run 0 source).2]
  simp [Builder.empty, turns]

/-- The step reads a whole opening tag, which makes the tag of an element. -/
def Turn.Opens (turn : Turn) (tag : Tag) : Prop :=
  turn.builder.rawRun turn.rest = [] ∧ tag.textPart? = none ∧
    ∃ name attributes selfClosing, turn.token = .openTag name attributes selfClosing ∧
      tag = .ofLexeme name ⟨turn.offset + 1 + name.byteLength, attributes⟩ turn.lexeme

namespace Effect

def tag? : Effect → Option Tag
  | .enter tag | .add (.element tag _ _) => some tag
  | _ => none

theorem exists_add_of_mem_seen {e : Effect} (h : e.tag? = none) {parent : Option Tag} {event : Event}
    (hevent : event ∈ e.seen parent) : ∃ node, e = .add node ∧ event = .pass parent node := by
  cases e with
  | add node =>
    cases node with
    | element tag closing children => cases h
    | _ => exact ⟨_, rfl, List.mem_singleton.1 hevent⟩
  | enter tag => cases h
  | _ => cases hevent

end Effect

theorem Tag.effect_of_tag? {tag opened : Tag} {selfClosing : Bool}
    (h : (tag.effect selfClosing).tag? = some opened) :
    opened = tag ∧ tag.textPart? = none ∧
      ∀ parent, (tag.effect selfClosing).seen parent = [.enter tag] := by
  unfold effect at h ⊢
  cases hpart : tag.textPart? with
  | some before =>
    rw [hpart] at h
    cases h
  | none =>
    rw [hpart] at h
    dsimp only at h ⊢
    split at h
    · next hvoid =>
      cases h
      exact ⟨rfl, rfl, fun _ => by rw [if_pos hvoid]; rfl⟩
    · next hvoid =>
      cases h
      exact ⟨rfl, rfl, fun _ => by rw [if_neg hvoid]; rfl⟩

theorem Turn.opens_of_tag? {turn : Turn} {tag : Tag} (h : turn.effect.tag? = some tag) :
    turn.Opens tag ∧ ∀ parent, turn.effect.seen parent = [.enter tag] := by
  have hclosing : ∀ name place, (turn.builder.closing name place).tag? = none := by
    intro name place
    rcases turn.builder.closing_cases name place with h | h | h <;> rw [h] <;> rfl
  by_cases hraw : turn.builder.rawRun turn.rest = []
  · rw [effect_eq hraw] at h ⊢
    cases htoken : turn.token with
    | openTag name attributes selfClosing =>
      rw [htoken] at h
      obtain ⟨rfl, hpart, hseen⟩ := Tag.effect_of_tag? h
      exact ⟨⟨hraw, hpart, name, attributes, selfClosing, htoken, rfl⟩, hseen⟩
    | closeTag name => simp [htoken, Builder.effect, hclosing] at h
    | runatOnClosingTag name => simp [htoken, Builder.effect, hclosing] at h
    | _ => simp [htoken, Builder.effect, Effect.tag?] at h
  · rw [effect_of_raw hraw] at h
    cases h

/-- Every tag of the tree was read as one lexeme. -/
theorem exists_opens {source : Text} {tag : Tag}
    (h : .enter tag ∈ Node.walkAll none (parse source).nodes) :
    ∃ turn ∈ turns source, turn.Opens tag := by
  have hseen : .enter tag ∈ (turns source).flatMap Turn.seen := by
    rw [← seen_parse]
    exact List.mem_filter.2 ⟨h, rfl⟩
  obtain ⟨turn, hturn, hmem⟩ := List.mem_flatMap.1 hseen
  refine ⟨turn, hturn, ?_⟩
  cases htag : turn.effect.tag? with
  | none =>
    obtain ⟨_, -, he⟩ := Effect.exists_add_of_mem_seen htag hmem
    cases he
  | some opened =>
    obtain ⟨hopens, hall⟩ := Turn.opens_of_tag? htag
    rw [Turn.seen, hall] at hmem
    cases List.mem_singleton.1 hmem
    exact hopens

/-- Every other node of the tree was added by one step, inside the innermost element then open. -/
theorem exists_add {source : Text} {parent : Option Tag} {node : Node}
    (h : .pass parent node ∈ Node.walkAll none (parse source).nodes) :
    ∃ turn ∈ turns source, turn.builder.parent? = parent ∧ turn.effect = .add node := by
  have hseen : .pass parent node ∈ (turns source).flatMap Turn.seen := by
    rw [← seen_parse]
    exact List.mem_filter.2 ⟨h, rfl⟩
  obtain ⟨turn, hturn, hmem⟩ := List.mem_flatMap.1 hseen
  refine ⟨turn, hturn, ?_⟩
  cases htag : turn.effect.tag? with
  | none =>
    obtain ⟨_, hadd, he⟩ := Effect.exists_add_of_mem_seen htag hmem
    cases he
    exact ⟨rfl, hadd⟩
  | some opened =>
    rw [Turn.seen, (Turn.opens_of_tag? htag).2] at hmem
    cases List.mem_singleton.1 hmem

namespace Builder

variable {b : Builder}

/-- Every unclosed tag that is reported was entered. -/
def Unclosed (b : Builder) : Prop :=
  ∀ p ∈ b.problems, p.defect.isUnclosedTag = true →
    ∃ tag, .enter tag ∈ b.walk ∧ p = ⟨.unclosedTag tag.name, tag.opening.span⟩

theorem Unclosed.closeInner (h : b.Unclosed) {frame : Frame} {outer : List Frame}
    (hs : b.stack = frame :: outer) (closing : Closing) : (b.closeInner closing).Unclosed := by
  intro p hp hunclosed
  rw [walk_closeInner hs]
  rw [problems_closeInner hs] at hp
  rcases List.mem_append.1 hp with hp | hp
  · refine ⟨frame.tag, ?_, ?_⟩
    · simp [walk_of_stack hs, Frame.walk]
    · unfold unclosedReports at hp
      split at hp
      · exact List.mem_singleton.1 hp
      · cases hp
  · obtain ⟨tag, htag, rfl⟩ := h p hp hunclosed
    exact ⟨tag, List.mem_append_left _ htag, rfl⟩

/-- More of the walk, and no more unclosed tags. -/
theorem Unclosed.grow {c : Builder} (h : b.Unclosed) {events : List Event}
    (hwalk : c.walk = b.walk ++ events) (hproblems : ∀ p ∈ c.problems,
      p ∈ b.problems ∨ p.defect.isUnclosedTag = false) : c.Unclosed := by
  intro p hp hunclosed
  rcases hproblems p hp with hp | hp
  · obtain ⟨tag, htag, rfl⟩ := h p hp hunclosed
    exact ⟨tag, hwalk ▸ List.mem_append_left _ htag, rfl⟩
  · simp [hp] at hunclosed

theorem Unclosed.closeThrough (h : b.Unclosed) (name : Text) (place : Fragment) :
    (b.closeThrough name place).Unclosed := by
  fun_induction Builder.closeThrough b name place with
  | case1 b _ => exact h
  | case2 b frame outer hs _ =>
    exact h.grow (walk_leave hs (.closed place)) fun p hp => .inl (by simpa using hp)
  | case3 b frame outer hs _ ih => exact ih (h.closeInner hs .unclosed)

theorem Unclosed.perform (h : b.Unclosed) (e : Effect) : (b.perform e).Unclosed := by
  cases e with
  | nothing => exact h
  | add node => exact h.grow (b.walk_push node) fun p hp => .inl (by simpa [Builder.perform] using hp)
  | enter tag => exact h.grow (b.walk_enter tag) fun p hp => .inl hp
  | close name place => exact h.closeThrough name place

theorem Unclosed.run (h : b.Unclosed) (offset : Nat) (t : Text) : (b.run offset t).Unclosed := by
  fun_induction Builder.run b offset t with
  | case1 b offset => exact h
  | case2 b offset t ht next ih =>
    refine ih ?_
    simp only [next]
    have hnoted : (b.note (Turn.remarks ⟨b, offset, t⟩).reverse).Unclosed := by
      refine h.grow (List.append_nil _).symm fun p hp => ?_
      rcases List.mem_append.1 hp with hp | hp
      · exact .inr (Turn.isUnclosedTag_of_mem_remarks (List.mem_reverse.1 hp))
      · exact .inl hp
    rw [Turn.step_eq ⟨b, offset, t⟩ ht]
    exact hnoted.perform _

end Builder

/-- Every problem was remarked on by a step, or is a tag of the tree that is not closed. -/
theorem exists_of_mem_problems {source : Text} {p : Problem} (h : p ∈ (parse source).problems) :
    (∃ turn ∈ turns source, p ∈ turn.remarks) ∨
      ∃ tag, .enter tag ∈ Node.walkAll none (parse source).nodes ∧
        p = ⟨.unclosedTag tag.name, tag.opening.span⟩ := by
  cases hunclosed : p.defect.isUnclosedTag with
  | false =>
    have hp : p ∈ (turns source).flatMap Turn.remarks := by
      rw [← remarks_parse]
      exact List.mem_filter.2 ⟨h, by simp [hunclosed]⟩
    exact .inl (List.mem_flatMap.1 hp)
  | true =>
    have hempty : Builder.empty.Unclosed := fun p hp => by cases hp
    have hall := (Builder.closeAll_induction (P := Builder.Unclosed)
      (fun b frame outer hb hs => hb.closeInner hs .endOfInput) (hempty.run 0 source)).1
    rw [walk_parse]
    exact .inr (hall p (List.mem_reverse.1 h) hunclosed)

/-- What a step remarks on is a problem of the page. -/
theorem mem_problems_of_mem_remarks {source : Text} {turn : Turn} (hturn : turn ∈ turns source)
    {p : Problem} (h : p ∈ turn.remarks) : p ∈ (parse source).problems := by
  have hp : p ∈ (turns source).flatMap Turn.remarks := List.mem_flatMap.2 ⟨turn, hturn, h⟩
  rw [← remarks_parse] at hp
  exact (List.mem_filter.1 hp).1

end ServerPages
