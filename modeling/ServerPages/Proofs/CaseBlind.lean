import ServerPages.Proofs.LoweredLexeme
import ServerPages.Proofs.LoweredTree
import ServerPages.Proofs.Origin

/-! Case plays no part in how a page is parsed: names, values and code are kept as they are written, and
nothing else depends on their case. A step takes builders that differ in case only to builders that differ
in case only, and so does a run. -/

namespace ServerPages

def Effect.lower : Effect → Effect
  | .nothing => .nothing
  | .add node => .add node.lower
  | .enter tag => .enter tag.lower
  | .close name place => .close name.lower place.lower

@[simp] theorem Effect.lower_lower (e : Effect) : e.lower.lower = e.lower := by
  cases e <;> simp [lower]

namespace Builder

theorem hasCode_lower (value : Text) : hasCode value.lower = hasCode value := by
  rw [hasCode, Text.holds_lower (by decide), Text.trimStart_lower, Text.after?_lower (by decide),
    Option.isNone_map, hasCode]

theorem keep_lower (parts : List Attribute × List Attribute) (a : Attribute) :
    keep (parts.map (List.map Attribute.lower) (List.map Attribute.lower)) a.lower =
      (keep parts a).map (List.map Attribute.lower) (List.map Attribute.lower) := by
  have hany : (parts.1.map Attribute.lower).any (·.name.same a.lower.name) =
      parts.1.any (·.name.same a.name) := by
    simp [List.any_map, Function.comp_def, Attribute.lower]
  rw [keep, Prod.map_fst, hany, keep]
  split <;> rfl

theorem separate_lower (attributes : List Attribute) :
    separate (attributes.map Attribute.lower) =
      ((separate attributes).1.map Attribute.lower, (separate attributes).2.map Attribute.lower) := by
  have hfold : ∀ parts : List Attribute × List Attribute, (attributes.map Attribute.lower).foldl keep
      (parts.map (List.map Attribute.lower) (List.map Attribute.lower)) =
        (attributes.foldl keep parts).map (List.map Attribute.lower) (List.map Attribute.lower) := by
    induction attributes with
    | nil => exact fun _ => rfl
    | cons a attributes ih =>
      intro parts
      rw [List.map_cons, List.foldl_cons, keep_lower, ih, List.foldl_cons]
  have hempty := hfold ([], [])
  rw [Prod.map_apply, List.map_nil] at hempty
  rw [separate_eq, hempty, separate_eq, Prod.map_fst, Prod.map_snd, List.map_reverse,
    List.map_reverse]

theorem beforeCode?_lower (t : Text) : beforeCode? t.lower = (beforeCode? t).map Text.lower := by
  cases t with
  | nil => rfl
  | cons c t =>
    rw [Text.lower_cons, beforeCode?, beforeCode?, Text.cut?_lower (by decide), Option.map_map,
      Option.map_map]
    rfl

end Builder

namespace Attribute

theorem repetition_lower (a : Attribute) : a.lower.repetition = a.repetition.lower := by
  simp [repetition, lower, Problem.lower, Defect.lower]

theorem codeReport?_lower (a : Attribute) :
    a.lower.codeReport? = a.codeReport?.map Problem.lower := by
  unfold codeReport?
  cases ha : a.value with
  | text value =>
    simp only [lower, ha, AttributeValue.lower, Builder.hasCode_lower, Fragment.span_lower]
    split <;> rfl
  | _ => simp [lower, ha, AttributeValue.lower]

end Attribute

namespace Tag

theorem codeReports_lower (tag : Tag) : tag.lower.codeReports = tag.codeReports.map Problem.lower := by
  simp only [codeReports, lower, List.filterMap_map, List.map_filterMap]
  congr 1
  funext a
  exact a.codeReport?_lower

theorem ofLexeme_lower (name : Text) (attributes place : Fragment) :
    ofLexeme name.lower attributes.lower place.lower = (ofLexeme name attributes place).lower := by
  simp only [ofLexeme, lower, Attribute.ofTag_lower, Builder.separate_lower, List.any_map]
  congr 2
  funext a
  simp only [Function.comp, Attribute.lower, AttributeValue.asText_lower, Text.same_lower_left]

theorem textPart?_lower (tag : Tag) : tag.lower.textPart? = tag.textPart?.map Text.lower := by
  rw [textPart?, isServer_lower, textPart?]
  split
  · rfl
  · exact Builder.beforeCode?_lower tag.opening.text

theorem effect_lower (tag : Tag) (selfClosing : Bool) :
    tag.lower.effect selfClosing = (tag.effect selfClosing).lower := by
  rw [effect, textPart?_lower, isVoid_lower, effect]
  cases tag.textPart? with
  | some before => rfl
  | none =>
    dsimp only [Option.map_none]
    split <;> rfl

end Tag

/-- Both sides are in lower case, because a directive without a name has the default one, with its capital. -/
theorem Directive.ofLexeme_lower (body place : Fragment) :
    (ofLexeme body.lower place.lower).lower = (ofLexeme body place).lower := by
  simp only [ofLexeme, DirectiveBody.read_lower, DirectiveBody.lower, Builder.separate_lower]
  cases (DirectiveBody.read body).name <;> simp [lower, Function.comp_def]

namespace Token

theorem inner_lower (token : Token) (place : Fragment) (text : Text) :
    (⟨token.lower.innerOffset place.lower.offset, text.lower⟩ : Fragment) =
      Fragment.lower ⟨token.innerOffset place.offset, text⟩ := by
  rw [innerOffset_lower]
  rfl

theorem read_lower (token : Token) (place : Fragment) :
    token.lower.read place.lower = (token.read place).lower := by
  cases token with
  | openTag name attributes selfClosing =>
    have hinner := inner_lower (.openTag name attributes selfClosing) place attributes
    rw [lower] at hinner ⊢
    rw [read, hinner, Tag.ofLexeme_lower, Tag.textPart?_lower, read]
    cases (Tag.ofLexeme name _ place).textPart? <;> rfl
  | _ => rfl

end Token

def Frame.lower (frame : Frame) : Frame := ⟨frame.tag.lower, frame.children.map Node.lower⟩

@[simp] theorem Frame.lower_lower (frame : Frame) : frame.lower.lower = frame.lower := by
  simp [lower, Function.comp_def]

namespace Builder

def lower (b : Builder) : Builder :=
  ⟨b.stack.map Frame.lower, b.top.map Node.lower, b.problems.map Problem.lower⟩

@[simp] theorem lower_lower (b : Builder) : b.lower.lower = b.lower := by
  simp [lower, Function.comp_def]

variable {b : Builder}

theorem note_lower (reports : List Problem) :
    (b.note reports).lower = b.lower.note (reports.map Problem.lower) := by
  simp [note, lower]

theorem push_lower (node : Node) : (b.push node).lower = b.lower.push node.lower := by
  obtain ⟨stack, top, problems⟩ := b
  cases stack <;> rfl

theorem unclosedReports_lower (tag : Tag) :
    unclosedReports tag.lower = (unclosedReports tag).map Problem.lower := by
  rw [unclosedReports, Tag.isServer_lower, unclosedReports]
  split
  · simp [Tag.lower, Problem.lower, Defect.lower]
  · rfl

theorem leave_lower (frame : Frame) (outer : List Frame) (closing : Closing) :
    (b.leave frame outer closing).lower =
      b.lower.leave frame.lower (outer.map Frame.lower) closing.lower := by
  rw [leave, push_lower, leave, Node.lower, Node.lowerAll_eq, List.map_reverse]
  rfl

theorem closeInner_lower (closing : Closing) :
    (b.closeInner closing).lower = b.lower.closeInner closing.lower := by
  cases hs : b.stack with
  | nil => simp [closeInner, lower, hs]
  | cons frame outer =>
    have hlower : b.lower.stack = frame.lower :: outer.map Frame.lower := by simp [lower, hs]
    rw [closeInner_eq hs, closeInner_eq hlower, leave_lower, note_lower]
    exact congrArg (fun reports => (b.lower.note reports).leave _ _ _)
      (unclosedReports_lower frame.tag).symm

theorem closeThrough_lower (name : Text) (place : Fragment) :
    (b.closeThrough name place).lower = b.lower.closeThrough name.lower place.lower := by
  fun_induction closeThrough b name place with
  | case1 b hs =>
    have hlower : b.lower.stack = [] := by simp [lower, hs]
    rw [closeThrough_of_nil hlower]
  | case2 b frame outer hs hname =>
    have hlower : b.lower.stack = frame.lower :: outer.map Frame.lower := by simp [lower, hs]
    rw [closeThrough_of_cons hlower, if_pos (by simpa [Frame.lower, Tag.lower] using hname)]
    exact leave_lower frame outer (.closed place)
  | case3 b frame outer hs hname ih =>
    have hlower : b.lower.stack = frame.lower :: outer.map Frame.lower := by simp [lower, hs]
    rw [closeThrough_of_cons hlower, if_neg (by simpa [Frame.lower, Tag.lower] using hname), ih,
      closeInner_lower]
    rfl

theorem perform_lower (e : Effect) : (b.perform e).lower = b.lower.perform e.lower := by
  cases e with
  | nothing => rfl
  | add node => exact push_lower node
  | enter tag => rfl
  | close name place => exact closeThrough_lower name place

theorem rawRun_lower (t : Text) : b.lower.rawRun t.lower = (b.rawRun t).lower := by
  obtain ⟨stack, top, problems⟩ := b
  cases stack with
  | nil => rfl
  | cons frame outer =>
    simp only [rawRun, lower, List.map_cons, Frame.lower, Tag.isRaw_lower]
    split
    · exact rawText_lower frame.tag.name (!frame.tag.runatServer) t
    · rfl

theorem parent?_lower : b.lower.parent? = b.parent?.map Tag.lower := by
  obtain ⟨stack, top, problems⟩ := b
  cases stack <;> rfl

theorem closes_lower (name : Text) : b.lower.closes name.lower = b.closes name := by
  simp [closes, lower, List.any_map, Function.comp_def, Frame.lower, Tag.lower]

theorem contains_colon_lower (name : Text) : name.lower.contains ':' = name.contains ':' :=
  Text.contains_lower (by decide) name

theorem closing_lower (name : Text) (place : Fragment) :
    b.lower.closing name.lower place.lower = (b.closing name place).lower := by
  simp only [closing, closes_lower, contains_colon_lower]
  repeat' split
  all_goals rfl

theorem closingRemarks_lower (name : Text) (place : Fragment) :
    b.lower.closingRemarks name.lower place.lower =
      (b.closingRemarks name place).map Problem.lower := by
  simp only [closingRemarks, closes_lower, contains_colon_lower, Fragment.span_lower]
  split <;> rfl

theorem directiveRemarks_lower (body place : Fragment) :
    (b.lower.directiveRemarks body.lower place.lower).map Problem.lower =
      (b.directiveRemarks body place).map Problem.lower := by
  have hname : (Directive.ofLexeme body.lower place.lower).name.lower =
      (Directive.ofLexeme body place).name.lower :=
    congrArg Directive.name (Directive.ofLexeme_lower body place)
  have hleft : (DirectiveBody.read body.lower).leftover =
      (DirectiveBody.read body).leftover.map Fragment.lower := by
    rw [DirectiveBody.read_lower, DirectiveBody.lower]
  have hrepeated : (separate (DirectiveBody.read body.lower).attributes).2 =
      (separate (DirectiveBody.read body).attributes).2.map Attribute.lower := by
    rw [DirectiveBody.read_lower, DirectiveBody.lower, separate_lower]
  simp only [directiveRemarks, List.map_append, hleft, hrepeated, parent?_lower, Option.toList_map,
    List.map_map]
  congr 1
  · congr 1
    · simp [Function.comp_def, Problem.lower, Defect.lower, Fragment.lower, Fragment.span]
    · simp [Function.comp_def, Problem.lower, Defect.lower, Tag.lower, hname]
  · simp [Function.comp_def, Attribute.repetition_lower, Problem.lower_lower]

theorem remarks_lower (token : Token) (place : Fragment) :
    (b.lower.remarks token.lower place.lower).map Problem.lower =
      (b.remarks token place).map Problem.lower := by
  cases token with
  | directive body => exact directiveRemarks_lower ⟨_, body⟩ place
  | openTag name attributes selfClosing =>
    have hinner := Token.inner_lower (.openTag name attributes selfClosing) place attributes
    rw [Token.lower] at hinner ⊢
    simp only [remarks, hinner, Tag.ofLexeme_lower, Tag.textPart?_lower, Option.isSome_map,
      Attribute.ofTag_lower, separate_lower, Tag.codeReports_lower]
    split
    · rfl
    · simp [Function.comp_def, Attribute.repetition_lower]
  | closeTag name => simp [remarks, Token.lower, closingRemarks_lower, Function.comp_def]
  | text => simp [remarks, Token.lower, Fragment.lower, strayEnd?_lower]
  | runatOnClosingTag name =>
    have hclosing : ((b.closingRemarks name place).map Problem.lower).map Problem.lower =
        (b.closingRemarks name place).map Problem.lower := by simp [Function.comp_def]
    rw [Token.lower, remarks, closingRemarks_lower, List.map_cons, hclosing, remarks, List.map_cons]
    simp [Problem.lower, Defect.lower]
  | _ => simp [remarks, Token.lower, Problem.lower, Defect.lower]

theorem effect_lower (token : Token) (place : Fragment) :
    (b.lower.effect token.lower place.lower).lower = (b.effect token place).lower := by
  cases token with
  | directive body =>
    exact congrArg (fun d => Effect.add (.directive d)) (Directive.ofLexeme_lower ⟨_, body⟩ place)
  | openTag name attributes selfClosing =>
    have hinner := Token.inner_lower (.openTag name attributes selfClosing) place attributes
    rw [Token.lower] at hinner ⊢
    rw [effect, hinner, Tag.ofLexeme_lower, Tag.effect_lower, Effect.lower_lower, effect]
  | closeTag name | runatOnClosingTag name =>
    rw [Token.lower, effect, closing_lower, effect, Effect.lower_lower]
  | _ => simp [effect, Token.lower, Effect.lower, Node.lower]

end Builder

namespace Turn

/-- the step of the builder in lower case in front of the text in lower case -/
def lower (turn : Turn) : Turn := ⟨turn.builder.lower, turn.offset, turn.rest.lower⟩

theorem token_lower (turn : Turn) : turn.lower.token = turn.token.lower := by
  rw [token, lower, Lexeme.scan_lower]
  rfl

theorem lexeme_lower (turn : Turn) : turn.lower.lexeme = turn.lexeme.lower := by
  rw [lexeme, lower, Lexeme.scan_lower]
  rfl

theorem remarks_lower (turn : Turn) :
    turn.lower.remarks.map Problem.lower = turn.remarks.map Problem.lower := by
  have hraw : turn.lower.builder.rawRun turn.lower.rest = (turn.builder.rawRun turn.rest).lower :=
    Builder.rawRun_lower turn.rest
  by_cases h : turn.builder.rawRun turn.rest = []
  · rw [remarks_eq h, remarks_eq (by rw [hraw, h]; rfl), token_lower, lexeme_lower]
    exact Builder.remarks_lower turn.token turn.lexeme
  · rw [remarks_of_raw h, remarks_of_raw (by rwa [hraw, ne_eq, Text.lower_eq_nil])]

theorem effect_lower (turn : Turn) : turn.lower.effect.lower = turn.effect.lower := by
  have hraw : turn.lower.builder.rawRun turn.lower.rest = (turn.builder.rawRun turn.rest).lower :=
    Builder.rawRun_lower turn.rest
  by_cases h : turn.builder.rawRun turn.rest = []
  · rw [effect_eq h, effect_eq (by rw [hraw, h]; rfl), token_lower, lexeme_lower]
    exact Builder.effect_lower turn.token turn.lexeme
  · rw [effect_of_raw h, effect_of_raw (by rwa [hraw, ne_eq, Text.lower_eq_nil]), hraw]
    exact Effect.lower_lower (.add (.literal ⟨turn.offset, turn.builder.rawRun turn.rest⟩))

end Turn

namespace Builder

variable {b : Builder}

/-- A step of the builder in lower case differs from the builder's own only in case. -/
theorem step_lower (offset : Nat) {t : Text} (ht : t ≠ []) :
    (b.lower.step offset t.lower).1.lower = (b.step offset t).1.lower := by
  have hnotes : (b.lower.note (Turn.lower ⟨b, offset, t⟩).remarks.reverse).lower =
      (b.note (Turn.remarks ⟨b, offset, t⟩).reverse).lower := by
    rw [note_lower, note_lower, lower_lower, List.map_reverse, Turn.remarks_lower, List.map_reverse]
  have hlower := Turn.step_eq (Turn.lower ⟨b, offset, t⟩) (by simpa [Turn.lower] using ht)
  have hstep := Turn.step_eq ⟨b, offset, t⟩ ht
  dsimp only [Turn.lower] at hlower hstep hnotes
  rw [hlower, hstep, perform_lower, perform_lower, hnotes]
  exact congrArg _ (Turn.effect_lower ⟨b, offset, t⟩)

theorem read_step_lower (offset : Nat) (t : Text) :
    (b.lower.step offset t.lower).2 = (b.step offset t).2.lower := by
  unfold step
  rw [rawRun_lower]
  cases b.rawRun t with
  | cons c raw => rfl
  | nil =>
    dsimp only [Text.lower_nil]
    rw [(shape_handle _ _).2, (shape_handle _ _).2, Lexeme.scan_lower]
    exact Token.read_lower (Lexeme.scan t).token ⟨offset, (Lexeme.scan t).text⟩

/-- Builders that differ in case only still do so at the end of pages that differ in case only. -/
theorem run_lower (b : Builder) (offset : Nat) (t : Text) : ∀ c : Builder, c.lower = b.lower →
    (c.run offset t.lower).lower = (b.run offset t).lower := by
  fun_induction run b offset t with
  | case1 b offset =>
    intro c h
    rw [run, dif_pos Text.lower_nil]
    exact h
  | case2 b offset t ht next ih =>
    intro c h
    have ht' : t.lower ≠ [] := by simpa using ht
    have hnext : (c.step offset t.lower).1.lower = next.1.lower := by
      rw [← step_lower offset ht', h, Text.lower_lower, step_lower offset ht]
    have hread : (c.step offset t.lower).2.lower = next.2.lower := by
      rw [← read_step_lower, h, Text.lower_lower, read_step_lower]
    have hlength : (c.step offset t.lower).2.length = next.2.length := by
      rw [← Text.length_lower, hread, Text.length_lower]
    have hbytes : (c.step offset t.lower).2.byteLength = next.2.byteLength := by
      rw [← Text.byteLength_lower, hread, Text.byteLength_lower]
    rw [run, dif_neg ht']
    dsimp only
    -- both have read as many characters and as many bytes, so what is left differs in case only
    rw [hlength, hbytes, Text.drop_lower]
    exact ih _ hnext

theorem closeAll_lower : b.closeAll.lower = b.lower.closeAll := by
  have hclose : ∀ (frames : List Frame) (c : Builder),
      (frames.foldl (fun c _ => c.closeInner .endOfInput) c).lower =
        (frames.map Frame.lower).foldl (fun c _ => c.closeInner .endOfInput) c.lower := by
    intro frames
    induction frames with
    | nil => exact fun _ => rfl
    | cons frame frames ih =>
      intro c
      rw [List.foldl_cons, ih, closeInner_lower, List.map_cons, List.foldl_cons]
      rfl
  exact hclose b.stack b

end Builder

theorem parse_lower (source : Text) : (parse source.lower).lower = (parse source).lower := by
  have hend : (Builder.empty.run 0 source.lower).closeAll.lower =
      (Builder.empty.run 0 source).closeAll.lower := by
    rw [Builder.closeAll_lower, Builder.run_lower _ _ _ _ rfl, Builder.closeAll_lower]
  have htop := congrArg Builder.top hend
  have hproblems := congrArg Builder.problems hend
  dsimp only [Builder.lower] at htop hproblems
  simp only [parse, Parsed.lower, List.map_reverse, htop, hproblems]

/-- A page in lower case has the tree and the problems of the page: at the same places, of the same
kinds, ended the same way, with the same texts in lower case. -/
theorem parse_case_blind (source : Text) :
    (parse source.lower).lower = (parse source).lower ∧
    (parse source.lower).spans = (parse source).spans ∧
    (parse source.lower).problems.map (fun p => (p.defect.message.lower, p.span)) =
      (parse source).problems.map (fun p => (p.defect.message.lower, p.span)) := by
  have hproblems : (parse source.lower).problems.map Problem.lower =
      (parse source).problems.map Problem.lower := congrArg Parsed.problems (parse_lower source)
  have hmessage : (fun p : Problem => (p.defect.message.lower, p.span)) =
      (fun p => (p.defect.message, p.span)) ∘ Problem.lower := by
    funext p
    exact congrArg (·, p.span) (Defect.message_lower p.defect).symm
  refine ⟨parse_lower source, ?_, ?_⟩
  · rw [← Parsed.spans_lower, parse_lower, Parsed.spans_lower]
  · rw [hmessage, ← List.map_map, hproblems, List.map_map]

end ServerPages
