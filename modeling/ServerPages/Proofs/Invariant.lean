import ServerPages.Proofs.Origin

/-! What is kept while a page is read. A property of the builder and its place in the page that every
step keeps, and that the end of the page keeps, holds of the finished tree. In particular this is so
for a property of the open elements that hands down one of the elements that are left. -/

namespace ServerPages

namespace Turn

theorem closing_of_add {turn : Turn} {tag : Tag} {closing : Closing} {children : List Node}
    (h : turn.effect = .add (.element tag closing children)) : closing = .selfClosing ∧ children = [] := by
  by_cases hraw : turn.builder.rawRun turn.rest = []
  · rw [effect_eq hraw] at h
    cases htoken : turn.token with
    | openTag name attributes selfClosing =>
      rw [htoken] at h
      simp only [Builder.effect, Tag.effect] at h
      split at h
      · cases h
      · split at h
        · cases h
          exact ⟨rfl, rfl⟩
        · cases h
    | closeTag name | runatOnClosingTag name =>
      rw [htoken] at h
      simp only [Builder.effect] at h
      rcases turn.builder.closing_cases name turn.lexeme with hc | hc | hc <;> rw [hc] at h <;> cases h
    | _ => simp [htoken, Builder.effect] at h
  · rw [effect_of_raw hraw] at h
    cases h

/-- An element is entered by an opening tag that does not close itself. -/
theorem of_enter {turn : Turn} {tag : Tag} (h : turn.effect = .enter tag) :
    turn.builder.rawRun turn.rest = [] ∧ tag.textPart? = none ∧
      ∃ name attributes, turn.token = .openTag name attributes false ∧
        tag = .ofLexeme name ⟨turn.offset + 1 + name.byteLength, attributes⟩ turn.lexeme := by
  have htag : turn.effect.tag? = some tag := by rw [h]; rfl
  obtain ⟨⟨hraw, hpart, name, attributes, selfClosing, htoken, rfl⟩, -⟩ := opens_of_tag? htag
  refine ⟨hraw, hpart, name, attributes, ?_, rfl⟩
  cases selfClosing with
  | false => exact htoken
  | true =>
    rw [effect_eq hraw, htoken] at h
    simp only [Builder.effect, Tag.effect] at h
    split at h
    · cases h
    · cases h

end Turn

namespace Builder

/-- The open elements have one property, and all that was walked so far has another. -/
structure Keeps (P : Tag → Prop) (Q : Event → Prop) (b : Builder) : Prop where
  tags : ∀ tag ∈ b.shape.tags, P tag
  events : ∀ event ∈ b.walk, Q event

variable {P : Tag → Prop} {Q : Event → Prop} {b : Builder} {frame : Frame} {outer : List Frame}

namespace Keeps

theorem note (h : b.Keeps P Q) (reports : List Problem) : (b.note reports).Keeps P Q :=
  ⟨h.tags, h.events⟩

theorem push (h : b.Keeps P Q) {node : Node} (hnode : ∀ event ∈ node.walk b.parent?, Q event) :
    (b.push node).Keeps P Q := by
  constructor
  · rw [shape_push]
    exact h.tags
  · rw [walk_push]
    intro event hevent
    rcases List.mem_append.1 hevent with hevent | hevent
    · exact h.events event hevent
    · exact hnode event hevent

theorem enter (h : b.Keeps P Q) {tag : Tag} (htag : P tag) (hevent : Q (.enter tag)) :
    { b with stack := ⟨tag, []⟩ :: b.stack : Builder }.Keeps P Q := by
  constructor
  · rw [shape_enter]
    intro other hother
    rcases List.mem_cons.1 hother with rfl | hother
    · exact htag
    · exact h.tags other hother
  · rw [walk_enter]
    intro event hmem
    rcases List.mem_append.1 hmem with hmem | hmem
    · exact h.events event hmem
    · rw [List.mem_singleton.1 hmem]
      exact hevent

section

variable (hleave : ∀ tag closing children, P tag → Q (.leave tag closing children))
include hleave

theorem leave (h : b.Keeps P Q) (hs : b.stack = frame :: outer) (closing : Closing) :
    (b.leave frame outer closing).Keeps P Q := by
  have htags : b.shape.tags = frame.tag :: outer.map (·.tag) := by simp [shape, hs]
  constructor
  · rw [shape_leave hs]
    intro tag htag
    exact h.tags tag (htags ▸ List.mem_cons_of_mem _ htag)
  · rw [walk_leave hs]
    intro event hevent
    rcases List.mem_append.1 hevent with hevent | hevent
    · exact h.events event hevent
    · rw [List.mem_singleton.1 hevent]
      exact hleave _ _ _ (h.tags _ (htags ▸ List.mem_cons_self ..))

theorem closeInner (h : b.Keeps P Q) (hs : b.stack = frame :: outer) (closing : Closing) :
    (b.closeInner closing).Keeps P Q := by
  rw [closeInner_eq hs]
  exact (h.note _).leave hleave hs closing

theorem closeThrough (h : b.Keeps P Q) (name : Text) (place : Fragment) :
    (b.closeThrough name place).Keeps P Q := by
  fun_induction Builder.closeThrough b name place with
  | case1 b _ => exact h
  | case2 b frame outer hs _ => exact h.leave hleave hs _
  | case3 b frame outer hs _ ih => exact ih (h.closeInner hleave hs _)

theorem perform (h : b.Keeps P Q) (e : Effect)
    (hadd : ∀ node, e = .add node → ∀ event ∈ node.walk b.parent?, Q event)
    (henter : ∀ tag, e = .enter tag → P tag ∧ Q (.enter tag)) : (b.perform e).Keeps P Q := by
  cases e with
  | nothing => exact h
  | add node => exact h.push (hadd node rfl)
  | enter tag => exact h.enter (henter tag rfl).1 (henter tag rfl).2
  | close name place => exact h.closeThrough hleave name place

end

end Keeps

/-- What every step keeps, is kept from any offset to the end of the text. -/
theorem run_turns_induction {P : Builder → Nat → Prop} {b : Builder} {offset : Nat} {t : Text}
    (step : ∀ turn ∈ b.turns offset t, P turn.builder turn.offset →
      P ((turn.builder.note turn.remarks.reverse).perform turn.effect) turn.place.span.stop)
    (h : P b offset) : P (b.run offset t) (offset + t.byteLength) := by
  fun_induction turns b offset t with
  | case1 b offset =>
    rw [run]
    simpa using h
  | case2 b offset t ht next ih =>
    have hlength : t.byteLength = next.2.byteLength + Text.byteLength (t.drop next.2.length) := by
      rw [← Text.byteLength_append, b.read_append_drop offset t]
    have hstep := step ⟨b, offset, t⟩ (List.mem_cons_self ..) h
    rw [← Turn.step_eq ⟨b, offset, t⟩ ht] at hstep
    rw [run, dif_neg ht, hlength, ← Nat.add_assoc]
    exact ih (fun turn hturn => step turn (List.mem_cons_of_mem _ hturn)) hstep

end Builder

/-- What holds before a page is read, and is kept by every step and when an element ends with the page,
holds of the builder that has the whole tree. -/
theorem parse_turns_induction {source : Text} {P : Builder → Nat → Prop} (start : P .empty 0)
    (step : ∀ turn ∈ turns source, P turn.builder turn.offset →
      P ((turn.builder.note turn.remarks.reverse).perform turn.effect) turn.place.span.stop)
    (inner : ∀ b frame outer, P b source.byteLength → b.stack = frame :: outer →
      P (b.closeInner .endOfInput) source.byteLength) :
    P (Builder.empty.run 0 source).closeAll source.byteLength := by
  have hrun := Builder.run_turns_induction step start
  rw [Nat.zero_add] at hrun
  exact (Builder.closeAll_induction (P := fun b => P b source.byteLength) inner hrun).1

theorem Node.leave_mem_walk {source : Text} {tag : Tag} {closing : Closing} {children : List Node}
    (h : .element tag closing children ∈ withinAll (parse source).nodes) :
    .leave tag closing children ∈ (Builder.empty.run 0 source).closeAll.walk := by
  rw [← walk_parse]
  exact walkAll_element_subset none _ h (by simp)

/-- Every element that does not close itself was entered. -/
theorem exists_enter {source : Text} {tag : Tag} {closing : Closing} {children : List Node}
    (h : .element tag closing children ∈ Node.withinAll (parse source).nodes)
    (hclosing : closing ≠ .selfClosing) : ∃ turn ∈ turns source, turn.effect = .enter tag := by
  let Entered (tag : Tag) : Prop := ∃ turn ∈ turns source, turn.effect = .enter tag
  let Left (event : Event) : Prop := ∀ tag closing children, event = .leave tag closing children →
    closing ≠ .selfClosing → Entered tag
  have hleave : ∀ tag closing children, Entered tag → Left (.leave tag closing children) := by
    rintro tag closing children hentered _ _ _ ⟨⟩ -
    exact hentered
  have hkept : (Builder.empty.run 0 source).closeAll.Keeps Entered Left := by
    refine parse_turns_induction (P := fun b _ => b.Keeps Entered Left) ?_ ?_ ?_
    · constructor <;> simp [Builder.shape, Builder.empty, Builder.walk, Node.walkAll]
    · intro turn hturn hkeeps
      refine (hkeeps.note _).perform hleave _ ?_ fun tag htag => ⟨⟨turn, hturn, htag⟩, ?_⟩
      · rintro node hnode event hevent tag closing children rfl hself
        cases node with
        | element other how inner =>
          obtain ⟨rfl, rfl⟩ := turn.closing_of_add hnode
          obtain ⟨-, hclosing, -⟩ : tag = other ∧ closing = .selfClosing ∧ children = [] := by
            simpa [Node.walk, Node.walkAll] using hevent
          exact absurd hclosing hself
        | _ => simp [Node.walk] at hevent
      · rintro _ _ _ ⟨⟩
    · intro b frame outer hkeeps hs
      exact hkeeps.closeInner hleave hs _
  exact hkept.events _ (Node.leave_mem_walk h) _ _ _ rfl hclosing

end ServerPages
