import Mathlib.Data.List.Basic
import ServerPages.Proofs.Progress
import ServerPages.Proofs.Runat

/-! Every attribute that is written in a tag or a directive is kept or reported. It is kept if it is the
first with its name there, and reported otherwise. So the problems about repeated attributes are, one for
one, what the tags and directives of the tree do not keep; a tag that became text has no part in them. -/

namespace ServerPages

namespace Attribute

/-- Of the attributes, those whose name occurs in front of them, or those whose name does not; `before` are
in front of them all. -/
def occurring (again : Bool) (before : List Attribute) : List Attribute → List Attribute
  | [] => []
  | a :: rest =>
    if before.any (·.name.same a.name) = again then a :: occurring again (a :: before) rest
    else occurring again (a :: before) rest

/-- The attributes that are the first with their name. -/
def firsts (attributes : List Attribute) : List Attribute := occurring false [] attributes

/-- The attributes that are not the first with their name. -/
def repeats (attributes : List Attribute) : List Attribute := occurring true [] attributes

theorem occurring_concat (again : Bool) (before attributes : List Attribute) (a : Attribute) :
    occurring again before (attributes ++ [a]) = occurring again before attributes ++
      if (attributes ++ before).any (·.name.same a.name) = again then [a] else [] := by
  induction attributes generalizing before with
  | nil => rw [List.nil_append, occurring, occurring, occurring, List.nil_append]; rfl
  | cons first attributes ih =>
    have hbefore : (attributes ++ first :: before).any (·.name.same a.name) =
        (first :: attributes ++ before).any (·.name.same a.name) := by
      simp only [List.any_append, List.any_cons, List.cons_append]
      exact Bool.or_left_comm _ _ _
    rw [List.cons_append, occurring, occurring, ih, hbefore]
    split <;> simp

theorem pairwise_occurring (before attributes : List Attribute) :
    (∀ b ∈ occurring false before attributes, before.any (·.name.same b.name) = false) ∧
      (occurring false before attributes).Pairwise fun a b => a.name.same b.name = false := by
  induction attributes generalizing before with
  | nil => exact ⟨by simp [occurring], .nil⟩
  | cons a attributes ih =>
    obtain ⟨hmem, hpairwise⟩ := ih (a :: before)
    simp only [List.any_cons, Bool.or_eq_false_iff] at hmem
    rw [occurring]
    split
    · next hfirst =>
      exact ⟨List.forall_mem_cons.2 ⟨hfirst, fun b hb => (hmem b hb).2⟩,
        List.pairwise_cons.2 ⟨fun b hb => (hmem b hb).1, hpairwise⟩⟩
    · exact ⟨fun b hb => (hmem b hb).2, hpairwise⟩

end Attribute

/-- To separate attributes is to tell the first with each name from the others. -/
theorem Builder.separate_eq_occurring (attributes : List Attribute) :
    separate attributes = (Attribute.firsts attributes, Attribute.repeats attributes) := by
  unfold Attribute.firsts Attribute.repeats
  induction attributes using List.reverseRecOn with
  | nil => rfl
  | append_singleton attributes a ih =>
    have hknown : (separate attributes).1.any (·.name.same a.name) =
        attributes.any (·.name.same a.name) := by
      rw [← List.isSome_find?, ← List.isSome_find?]
      exact congrArg Option.isSome (find?_separate attributes a.name)
    rw [separate_concat, hknown, ih, Attribute.occurring_concat, Attribute.occurring_concat,
      List.append_nil]
    cases attributes.any (·.name.same a.name) <;> simp

/-- The attributes of a tag or a directive that starts at `offset`, as they are written. -/
def Token.attributesAt? (offset : Nat) (token : Token) : Option (List Attribute) :=
  match token with
  | .openTag _ attributes _ => some (Attribute.ofTag ⟨token.innerOffset offset, attributes⟩)
  | .directive body => some (DirectiveBody.read ⟨token.innerOffset offset, body⟩).attributes
  | _ => none

/-- The attributes that are written at this place of the page, if a tag or a directive is. -/
def Fragment.written? (source : Text) (place : Fragment) : Option (List Attribute) :=
  (Lexeme.at? source place.offset).bind fun lexeme =>
    if lexeme.text = place.text then lexeme.token.attributesAt? place.offset else none

def Node.written? (source : Text) : Node → Option (List Attribute)
  | .element tag _ _ => tag.opening.written? source
  | .directive d => d.place.written? source
  | _ => none

def Problem.isRepetition (p : Problem) : Bool :=
  match p.defect with
  | .duplicateAttribute _ => true
  | _ => false

namespace Event

def written? (source : Text) : Event → Option (List Attribute)
  | .enter tag => tag.opening.written? source
  | .pass _ (.directive d) => d.place.written? source
  | _ => none

/-- A problem for every attribute that is written there again. -/
def repetitions (source : Text) (event : Event) : List Problem :=
  (event.written? source).toList.flatMap fun written =>
    (Attribute.repeats written).map Attribute.repetition

theorem flatMap_repetitions {source : Text} {event : Event} {written : List Attribute}
    (h : event.written? source = some written) :
    [event].flatMap (repetitions source) = (Attribute.repeats written).map Attribute.repetition := by
  rw [List.flatMap_singleton, repetitions, h]
  exact List.flatMap_singleton ..

end Event

theorem Node.pass_mem_walkAll {nodes : List Node} {d : Directive} (h : .directive d ∈ withinAll nodes) :
    ∃ parent, .pass parent (.directive d) ∈ walkAll none nodes := by
  obtain ⟨event, hevent, hnode⟩ := List.mem_filterMap.1 (withinAll_eq_walk none nodes ▸ h)
  cases event with
  | enter tag => cases hnode
  | pass parent node => cases node <;> cases hnode; exact ⟨parent, hevent⟩
  | leave tag closing children => cases hnode

theorem Attribute.filter_repetitions (repeated : List Attribute) :
    (repeated.map repetition).filter Problem.isRepetition = repeated.map repetition := by
  refine List.filter_eq_self.2 fun p hp => ?_
  obtain ⟨a, -, rfl⟩ := List.mem_map.1 hp
  rfl

theorem Tag.filter_codeReports (tag : Tag) : tag.codeReports.filter Problem.isRepetition = [] := by
  refine List.filter_eq_nil_iff.2 fun p hp => ?_
  obtain ⟨_, -, rfl⟩ := Tag.exists_of_mem_codeReports hp
  exact Bool.false_ne_true

namespace Builder

variable (b : Builder)

theorem filter_directiveRemarks (body place : Fragment) :
    (b.directiveRemarks body place).filter Problem.isRepetition =
      (Attribute.repeats (DirectiveBody.read body).attributes).map Attribute.repetition := by
  rw [directiveRemarks, List.filter_append, List.filter_append, Attribute.filter_repetitions,
    separate_eq_occurring]
  cases (DirectiveBody.read body).leftover <;> cases b.parent? <;> rfl

/-- A tag that becomes text has no such problem and no part in the tree. -/
theorem filter_tagRemarks {source name attributes : Text} {selfClosing : Bool} {place : Fragment}
    (hwritten : place.written? source =
      (Token.openTag name attributes selfClosing).attributesAt? place.offset) :
    (b.remarks (.openTag name attributes selfClosing) place).filter Problem.isRepetition =
      ((b.effect (.openTag name attributes selfClosing) place).seen b.parent?).flatMap
        (Event.repetitions source) := by
  rw [remarks, effect, Tag.effect]
  cases hpart : (Tag.ofLexeme name
    ⟨(Token.openTag name attributes selfClosing).innerOffset place.offset, attributes⟩
    place).textPart? with
  | some before => rfl
  | none =>
    have hevent : (Event.enter (Tag.ofLexeme name
        ⟨(Token.openTag name attributes selfClosing).innerOffset place.offset, attributes⟩
        place)).written? source = _ := hwritten
    have hseen := Event.flatMap_repetitions hevent
    simp only [Option.isSome_none, Bool.false_eq_true, if_false]
    rw [List.filter_append, Attribute.filter_repetitions, Tag.filter_codeReports, List.append_nil,
      separate_eq_occurring]
    split <;> exact hseen.symm

theorem filter_closingRemarks (name : Text) (place : Fragment) :
    (b.closingRemarks name place).filter Problem.isRepetition = [] := by
  unfold closingRemarks
  split <;> rfl

theorem repetitions_closing (source name : Text) (place : Fragment) (parent : Option Tag) :
    ((b.closing name place).seen parent).flatMap (Event.repetitions source) = [] := by
  rcases b.closing_cases name place with h | h | h <;> rw [h] <;> rfl

end Builder

namespace Turn

variable {source : Text} {turn : Turn}

/-- What is read in one step is read again where it stands. -/
theorem written?_lexeme (h : turn ∈ turns source) :
    turn.lexeme.written? source = turn.token.attributesAt? turn.offset := by
  rw [Fragment.written?, show turn.lexeme.offset = turn.offset from rfl, at?_offset h,
    Option.bind_some]
  exact if_pos rfl

theorem Opens.written? (h : turn ∈ turns source) {tag : Tag} (hopens : turn.Opens tag) :
    ∃ written, tag.opening.written? source = some written ∧
      tag.attributes = Attribute.firsts written := by
  obtain ⟨-, -, name, attributes, selfClosing, htoken, rfl⟩ := hopens
  refine ⟨_, (written?_lexeme h).trans (by rw [htoken]; rfl), ?_⟩
  exact congrArg Prod.fst (Builder.separate_eq_occurring _)

theorem written?_of_directive (h : turn ∈ turns source) {d : Directive}
    (heffect : turn.effect = .add (.directive d)) :
    ∃ written, d.place.written? source = some written ∧ d.attributes = Attribute.firsts written := by
  obtain ⟨body, htoken, rfl⟩ := directive_of_effect heffect
  refine ⟨_, (written?_lexeme h).trans (by rw [htoken]; rfl), ?_⟩
  exact congrArg Prod.fst (Builder.separate_eq_occurring _)

/-- A step finds the attributes that are written again in what it adds to the tree, and no others. -/
theorem filter_remarks (h : turn ∈ turns source) :
    turn.remarks.filter Problem.isRepetition = turn.seen.flatMap (Event.repetitions source) := by
  by_cases hraw : turn.builder.rawRun turn.rest = []
  · have hwritten := written?_lexeme h
    rw [remarks_eq hraw, seen, effect_eq hraw]
    cases htoken : turn.token with
    | directive body =>
      rw [htoken] at hwritten
      have hevent : (Event.pass turn.builder.parent? (.directive
          (.ofLexeme ⟨turn.offset + 3, body⟩ turn.lexeme))).written? source = _ := hwritten
      rw [Builder.remarks, Builder.filter_directiveRemarks]
      exact (Event.flatMap_repetitions hevent).symm
    | openTag name attributes selfClosing =>
      rw [htoken] at hwritten
      exact turn.builder.filter_tagRemarks hwritten
    | closeTag name =>
      rw [Builder.remarks, Builder.filter_closingRemarks, Builder.effect, Builder.repetitions_closing]
    | runatOnClosingTag name =>
      rw [Builder.effect, Builder.repetitions_closing]
      exact Builder.filter_closingRemarks ..
    | text =>
      rw [Builder.remarks]
      cases strayEnd? turn.lexeme.text <;> rfl
    | _ => rfl
  · rw [remarks_of_raw hraw, seen, effect_of_raw hraw]
    rfl

end Turn

theorem Event.flatMap_repetitions_filter (source : Text) (events : List Event) :
    (events.filter (!·.isLeave)).flatMap (repetitions source) = events.flatMap (repetitions source) := by
  induction events with
  | nil => rfl
  | cons event events ih =>
    cases event with
    | leave tag closing children => exact ih
    | _ => exact congrArg (_ ++ ·) ih

theorem filter_problems (source : Text) : (parse source).problems.filter Problem.isRepetition =
    (Node.walkAll none (parse source).nodes).flatMap (Event.repetitions source) := by
  have hclosed : ∀ p : Problem, (p.isRepetition && !p.defect.isUnclosedTag) = p.isRepetition := by
    rintro ⟨defect, span⟩
    cases defect <;> rfl
  have hremarks := congrArg (List.filter Problem.isRepetition) (remarks_parse source)
  simp only [List.filter_filter, hclosed, List.filter_flatMap] at hremarks
  rw [hremarks, ← Event.flatMap_repetitions_filter, seen_parse, List.flatMap_assoc]
  exact List.flatMap_congr fun turn hturn => Turn.filter_remarks hturn

/-- The attributes of a page. The tags and directives of its tree keep, of the attributes that are written
in them, the first with each name, so that no two names are the same. The others are the problems about
repeated attributes, each with its name and its place, in the order in which they are written. -/
theorem parse_duplicateAttribute (source : Text) :
    (∀ node ∈ Node.withinAll (parse source).nodes, ∀ kept, node.attributes? = some kept →
      (∃ written, node.written? source = some written ∧ kept = Attribute.firsts written) ∧
      kept.Pairwise fun a b => a.name.same b.name = false) ∧
    (parse source).problems.filter Problem.isRepetition =
      (Node.walkAll none (parse source).nodes).flatMap (Event.repetitions source) := by
  constructor
  · intro node hnode kept hkept
    have hwritten : ∃ written, node.written? source = some written ∧
        kept = Attribute.firsts written := by
      cases node with
      | element tag closing children =>
        cases hkept
        obtain ⟨turn, hturn, hopens⟩ := exists_opens (Node.enter_mem_walkAll none _ hnode)
        exact hopens.written? hturn
      | directive d =>
        cases hkept
        obtain ⟨parent, hpass⟩ := Node.pass_mem_walkAll hnode
        obtain ⟨turn, hturn, -, heffect⟩ := exists_add hpass
        exact Turn.written?_of_directive hturn heffect
      | _ => cases hkept
    obtain ⟨written, -, rfl⟩ := id hwritten
    exact ⟨hwritten, (Attribute.pairwise_occurring [] written).2⟩
  · exact filter_problems source

end ServerPages
