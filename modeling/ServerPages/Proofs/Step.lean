import ServerPages.Proofs.Scan
import ServerPages.Proofs.Walk

/-! What one step of the builder can do. It adds a node without children, enters an element, closes
elements through one whose name a closing tag has, or discards a lexeme; it reads a front part of the
text, and some of it. Everything about the tree of a page is derived from these moves. -/

namespace ServerPages

def Defect.isNesting : Defect → Bool
  | .unclosedTag _ | .nestedDirective _ _ => true
  | _ => false

def Quiet (reports : List Problem) : Prop := ∀ p ∈ reports, p.defect.isNesting = false

theorem Quiet.nil : Quiet [] := by simp [Quiet]

theorem Quiet.singleton {p : Problem} (h : p.defect.isNesting = false) : Quiet [p] := by
  simpa [Quiet] using h

theorem Quiet.append {as bs : List Problem} (ha : Quiet as) (hb : Quiet bs) : Quiet (as ++ bs) := by
  intro p hp
  rcases List.mem_append.1 hp with h | h
  · exact ha p h
  · exact hb p h

theorem Quiet.filter_reverse {reports : List Problem} (h : Quiet reports) :
    reports.reverse.filter (·.defect.isNesting) = [] := by
  rw [List.filter_eq_nil_iff]
  intro p hp
  simp [h p (List.mem_reverse.1 hp)]

namespace Token

def closingName? : Token → Option Text
  | .closeTag name | .runatOnClosingTag name => some name
  | _ => none

/-- What a lexeme that is left out of the tree is reported as; a comment is not. -/
def omission? : Token → Option Defect
  | .unterminatedComment => some .unterminatedComment
  | .unterminatedDirective => some .unterminatedDirective
  | .closeTag name | .runatOnClosingTag name => some (.unexpectedClosingTag name)
  | _ => none

end Token

/-- The node is all that is written at `place`. -/
def Node.IsSingle (place : Fragment) : Node → Prop
  | .directive d => d.place = place
  | .element tag closing children => tag.opening = place ∧ closing = .selfClosing ∧ children = []
  | .literal here | .code _ _ here | .binding _ _ here => here = place

/-- The problem of nesting that a walk meets: a directive inside an element, or a server element that
no tag of its own closes. -/
def Event.report? : Event → Option Problem
  | .pass (some parent) (.directive d) =>
    some ⟨.nestedDirective d.name parent.name, d.place.span⟩
  | .leave tag .unclosed _ | .leave tag .endOfInput _ =>
    if tag.isServer then some ⟨.unclosedTag tag.name, tag.opening.span⟩ else none
  | _ => none

namespace Builder

/-- Whether the next step reads a lexeme that leaves nothing in the tree: a comment, a comment or a
directive that is not terminated, or a closing tag with a colon when no open element has its name. -/
def discards (b : Builder) (t : Text) : Bool :=
  (b.rawRun t).isEmpty &&
    match (Lexeme.scan t).token with
    | .comment | .unterminatedComment | .unterminatedDirective => true
    | .closeTag name | .runatOnClosingTag name =>
      name.contains ':' && !b.stack.any (·.tag.name.same name)
    | _ => false

/-- The second builder only knows more problems, none of them about nesting. -/
def Notes (b b' : Builder) : Prop := ∃ reports, Quiet reports ∧ b' = b.note reports

theorem Notes.refl (b : Builder) : b.Notes b := ⟨[], .nil, rfl⟩

theorem Notes.trans {a b c : Builder} (h1 : a.Notes b) (h2 : b.Notes c) : a.Notes c := by
  obtain ⟨earlier, hq1, rfl⟩ := h1
  obtain ⟨later, hq2, rfl⟩ := h2
  exact ⟨later ++ earlier, hq2.append hq1, note_note _ _⟩

/-- What a step at `offset` in front of `t` does to the tree, and what it reads. -/
inductive Move (b : Builder) (offset : Nat) (t : Text) : Builder → Text → Prop
  | add {node : Node} {reports : List Problem} {read : Text} (kept : b.discards t = false)
      (single : node.IsSingle ⟨offset, read⟩)
      (nesting : reports.reverse.filter (·.defect.isNesting) =
        (node.walk b.parent?).filterMap Event.report?) :
      Move b offset t ((b.note reports).push node) read
  | enter {b' : Builder} {tag : Tag} (kept : b.discards t = false) (noted : b.Notes b')
      (start : tag.opening.offset = offset) :
      Move b offset t { b' with stack := ⟨tag, []⟩ :: b'.stack } tag.opening.text
  | close {b' : Builder} {name : Text} (kept : b.discards t = false) (noted : b.Notes b')
      (closing : (Lexeme.scan t).token.closingName? = some name)
      (isOpen : b'.stack.any (·.tag.name.same name) = true) :
      Move b offset t (b'.closeThrough name ⟨offset, (Lexeme.scan t).text⟩) (Lexeme.scan t).text
  | discard {b' : Builder} (dropped : b.discards t = true) (noted : b.Notes b')
      (reported : ∀ defect ∈ (Lexeme.scan t).token.omission?,
        ⟨defect, Fragment.span ⟨offset, (Lexeme.scan t).text⟩⟩ ∈ b'.problems) :
      Move b offset t b' (Lexeme.scan t).text

theorem notes_report (b : Builder) (defect : Defect) (span : Span)
    (h : defect.isNesting = false) : b.Notes (b.report defect span) :=
  ⟨[⟨defect, span⟩], .singleton h, rfl⟩

theorem notes_foldl {α : Type} {f : Builder → α → Builder} (hf : ∀ (b : Builder) (a : α), b.Notes (f b a))
    (as : List α) (b : Builder) : b.Notes (as.foldl f b) := by
  induction as generalizing b with
  | nil => exact .refl b
  | cons a as ih => exact (hf b a).trans (ih (f b a))

theorem notes_reportRepeated (b : Builder) (repeated : List Attribute) :
    b.Notes (b.reportRepeated repeated) := by
  apply notes_foldl
  intro b a
  exact b.notes_report (.duplicateAttribute a.name) _ rfl

theorem notes_reportCode (b : Builder) (attributes : List Attribute) :
    b.Notes (b.reportCode attributes) := by
  apply notes_foldl
  intro b a
  split
  · split
    · exact b.notes_report (.codeInServerTag a.name) _ rfl
    · exact .refl b
  · exact .refl b

variable {b : Builder} {offset : Nat} {t : Text}

theorem notes_text (b : Builder) (place : Fragment) :
    ∃ b', b.Notes b' ∧ b.text place = b'.pushLiteral place := by
  unfold text
  split
  · exact ⟨_, b.notes_report .strayEnd _ rfl, rfl⟩
  · exact ⟨b, .refl b, rfl⟩

theorem move_add {b' : Builder} {node : Node} {read : Text} (kept : b.discards t = false)
    (h : b.Notes b') (single : node.IsSingle ⟨offset, read⟩)
    (hwalk : (node.walk b.parent?).filterMap Event.report? = []) :
    Move b offset t (b'.push node) read := by
  obtain ⟨reports, hq, rfl⟩ := h
  exact .add kept single (by rw [hq.filter_reverse, hwalk])

theorem move_literal {b' : Builder} {read : Text} (kept : b.discards t = false) (h : b.Notes b')
    (hread : read ≠ []) : Move b offset t (b'.pushLiteral ⟨offset, read⟩) read := by
  rw [pushLiteral, if_neg (by simpa using hread)]
  exact move_add kept h rfl (by simp [Node.walk, Event.report?])

/-- A directive is added after the problems of its text, of its place and of its attributes. -/
theorem directive_eq (b : Builder) (body place : Fragment) :
    ∃ d : Directive, ∃ left repeated, d.place = place ∧ Quiet left ∧ b.directive body place =
      ((b.note (b.stack.head?.toList.map (fun frame =>
        ⟨.nestedDirective d.name frame.tag.name, place.span⟩) ++ left)).reportRepeated repeated).push
        (.directive d) := by
  refine ⟨⟨(DirectiveBody.read body).name.getD defaultDirective,
    (separate (DirectiveBody.read body).attributes).1, place⟩,
    (DirectiveBody.read body).leftover.toList.map fun leftover =>
      ⟨.malformedDirective leftover.text, leftover.span⟩,
    (separate (DirectiveBody.read body).attributes).2, rfl, ?_, ?_⟩
  · intro p hp
    obtain ⟨leftover, _, rfl⟩ := List.mem_map.1 hp
    rfl
  · obtain ⟨stack, top, problems⟩ := b
    unfold directive
    cases hleft : (DirectiveBody.read body).leftover <;> cases stack <;> simp [hleft, report, note]

theorem move_directive (kept : b.discards t = false) (body : Fragment) (read : Text) :
    Move b offset t (b.directive body ⟨offset, read⟩) read := by
  obtain ⟨d, left, repeated, hd, hq, heq⟩ := b.directive_eq body ⟨offset, read⟩
  obtain ⟨more, hq', hmore⟩ := notes_reportRepeated (b.note (b.stack.head?.toList.map (fun frame =>
    ⟨.nestedDirective d.name frame.tag.name, Fragment.span ⟨offset, read⟩⟩) ++ left)) repeated
  rw [heq, hmore, note_note]
  refine .add kept hd ?_
  simp only [List.reverse_append, List.filter_append, hq.filter_reverse, hq'.filter_reverse]
  cases hs : b.stack with
  | nil => simp [Node.walk, parent?, hs, Event.report?]
  | cons frame outer => simp [Node.walk, parent?, hs, Event.report?, Defect.isNesting, hd]

theorem move_openTag (kept : b.discards t = false) (name : Text) (attributes : Fragment)
    (selfClosing : Bool) {read : Text} (hread : read ≠ []) :
    Move b offset t (b.openTag name attributes selfClosing ⟨offset, read⟩).1
      (b.openTag name attributes selfClosing ⟨offset, read⟩).2 := by
  unfold openTag
  dsimp only
  split
  · next front hfront =>
    split at hfront
    · simp at hfront
    · refine move_literal kept (.refl b) ?_
      cases read with
      | nil => exact absurd rfl hread
      | cons c read =>
        obtain ⟨_, _, rfl⟩ := Option.map_eq_some_iff.1 hfront
        simp
  · generalize (Attribute.ofTag attributes).any (fun a => a.name.same "runat".toList &&
      a.value.asText.same "server".toList) = runat
    generalize separate (Attribute.ofTag attributes) = parts
    have hnotes := (b.notes_reportRepeated parts.2).trans
      ((b.reportRepeated parts.2).notes_reportCode parts.1)
    split
    · exact move_add kept hnotes ⟨rfl, rfl, rfl⟩ (by simp [Node.walk, Node.walkAll, Event.report?])
    · have hmove := Move.enter (b := b) (t := t) kept hnotes
        (show (Tag.mk name parts.1 ⟨offset, read⟩ runat).opening.offset = offset from rfl)
      exact hmove

theorem discards_of_closing {name : Text} (hraw : b.rawRun t = [])
    (h : (Lexeme.scan t).token.closingName? = some name) :
    b.discards t = (name.contains ':' && !b.stack.any (·.tag.name.same name)) := by
  unfold discards
  rw [hraw]
  cases htoken : (Lexeme.scan t).token <;> simp_all [Token.closingName?]

theorem move_closeTag {b' : Builder} {name : Text} (h : b.Notes b') (hraw : b.rawRun t = [])
    (hname : (Lexeme.scan t).token.closingName? = some name) (ht : t ≠ []) :
    Move b offset t (b'.closeTag name ⟨offset, (Lexeme.scan t).text⟩) (Lexeme.scan t).text := by
  have hdiscards := discards_of_closing hraw hname
  have hstack : b'.stack = b.stack := by obtain ⟨_, _, rfl⟩ := h; rfl
  rw [closeTag, hstack]
  split
  · next hopen => exact .close (by rw [hdiscards, hopen]; simp) h hname (by rwa [hstack])
  · next hopen =>
    split
    · next hcolon =>
      refine .discard (by rw [hdiscards, hcolon]; simpa using hopen)
        (h.trans (b'.notes_report (.unexpectedClosingTag name) _ rfl)) ?_
      have homission : (Lexeme.scan t).token.omission? = some (.unexpectedClosingTag name) := by
        cases htoken : (Lexeme.scan t).token <;> simp_all [Token.closingName?, Token.omission?]
      simp [homission, report]
    · next hcolon =>
      refine move_literal ?_ h (Lexeme.text_scan_ne_nil ht)
      rw [hdiscards, Bool.eq_false_iff.2 hcolon, Bool.false_and]

/-- Every step is one of the moves. -/
theorem step_move (b : Builder) (offset : Nat) (ht : t ≠ []) :
    Move b offset t (b.step offset t).1 (b.step offset t).2 := by
  have hread := Lexeme.text_scan_ne_nil ht
  unfold step
  split
  · next hraw =>
    have hkept : ∀ token, (Lexeme.scan t).token = token → token.omission? = none →
        token ≠ .comment → b.discards t = false := by
      intro token htoken hnone hcomment
      rw [discards, hraw, htoken]
      cases token <;> simp_all [Token.omission?]
    dsimp only
    cases htoken : (Lexeme.scan t).token with
    | comment =>
      exact .discard (by simp [discards, hraw, htoken]) (.refl b) (by simp [htoken, Token.omission?])
    | directive body => exact move_directive (hkept _ htoken rfl (by simp)) _ _
    | code kind body =>
      exact move_add (hkept _ htoken rfl (by simp)) (.refl b) rfl
        (by simp [Node.walk, Event.report?])
    | binding expression encode =>
      exact move_add (hkept _ htoken rfl (by simp)) (.refl b) rfl
        (by simp [Node.walk, Event.report?])
    | openTag name attributes selfClosing =>
      exact move_openTag (hkept _ htoken rfl (by simp)) name _ selfClosing hread
    | closeTag name => exact move_closeTag (.refl b) hraw (by rw [htoken]; rfl) ht
    | text =>
      obtain ⟨b', hnotes, heq⟩ := b.notes_text ⟨offset, (Lexeme.scan t).text⟩
      rw [handle, heq]
      exact move_literal (hkept _ htoken rfl (by simp)) hnotes hread
    | unterminatedComment =>
      exact .discard (by simp [discards, hraw, htoken])
        (b.notes_report .unterminatedComment _ rfl) (by simp [htoken, Token.omission?, handle, report])
    | unterminatedDirective =>
      exact .discard (by simp [discards, hraw, htoken])
        (b.notes_report .unterminatedDirective _ rfl) (by simp [htoken, Token.omission?, handle, report])
    | unterminatedCode =>
      exact move_literal (hkept _ htoken rfl (by simp))
        (b.notes_report .unterminatedCode _ rfl) hread
    | malformedServerTag name =>
      exact move_literal (hkept _ htoken rfl (by simp))
        (b.notes_report (.malformedServerTag name) _ rfl) hread
    | runatOnClosingTag name =>
      exact move_closeTag (b.notes_report (.runatOnClosingTag name) _ rfl) hraw
        (by rw [htoken]; rfl) ht
  · next hraw =>
    -- in a raw element the text up to its end is read as it is
    refine move_literal ?_ (.refl b) hraw
    rw [discards, List.isEmpty_eq_false_iff.2 hraw, Bool.false_and]

theorem isPrefix_read_handle (b : Builder) (token : Token) (place : Fragment) :
    (b.handle token place).2 <+: place.text := by
  cases token with
  | openTag name attributes selfClosing =>
    simp only [handle, openTag]
    split
    · next front hfront =>
      split at hfront
      · simp at hfront
      · exact isPrefix_beforeCode? hfront
    · split <;> exact List.prefix_refl _
  | _ => exact List.prefix_refl _

theorem isPrefix_read_step (b : Builder) (offset : Nat) (t : Text) : (b.step offset t).2 <+: t := by
  unfold step
  split
  · exact (isPrefix_read_handle _ _ _).trans (Lexeme.isPrefix_text_scan t)
  · exact b.isPrefix_rawRun t

theorem read_append_drop (b : Builder) (offset : Nat) (t : Text) :
    (b.step offset t).2 ++ t.drop (b.step offset t).2.length = t :=
  List.prefix_iff_eq_append.1 (b.isPrefix_read_step offset t)

/-- What every move keeps is kept to the end of the page. `source` is the whole page, so that a move
is one at some offset of it. -/
theorem run_induction {source : Text} {P : Builder → Prop}
    (move : ∀ b offset t b' read, Lexeme.at? source offset = some (Lexeme.scan t) → P b →
      Move b offset t b' read → P b')
    (hsource : ∃ front, source = front ++ t ∧ offset = Text.byteLength front) (h : P b) :
    P (b.run offset t) := by
  fun_induction run b offset t with
  | case1 b offset => exact h
  | case2 b offset t ht next ih =>
    obtain ⟨front, hfront, hoffset⟩ := hsource
    have hat : Lexeme.at? source offset = some (Lexeme.scan t) := by
      rw [Lexeme.at?, hfront, hoffset, Text.dropBytes?_append]
      rfl
    refine ih ⟨front ++ next.2, ?_, ?_⟩ (move b offset t _ _ hat h (step_move b offset ht))
    · rw [List.append_assoc, b.read_append_drop offset t, hfront]
    · rw [hoffset, Text.byteLength_append]

/-- What holds before anything is read, and is kept by every move and by the end of the page, holds of
a page's tree. -/
theorem parse_induction (source : Text) {P Q : Builder → Prop} (start : P .empty)
    (move : ∀ b offset t b' read, Lexeme.at? source offset = some (Lexeme.scan t) → P b →
      Move b offset t b' read → P b')
    (ending : ∀ b, P b → Q b)
    (inner : ∀ b frame outer, Q b → b.stack = frame :: outer → Q (b.closeInner .endOfInput)) :
    ∃ b, Q b ∧ b.stack = [] ∧ parse source = ⟨b.top.reverse, b.problems.reverse⟩ := by
  have hrun := ending _ (run_induction move ⟨[], rfl, rfl⟩ start)
  obtain ⟨hq, hstack⟩ := closeAll_induction inner hrun
  exact ⟨_, hq, hstack, rfl⟩

end Builder

end ServerPages
