import Mathlib.Data.List.Induction
import ServerPages.Proofs.OpenTag
import ServerPages.Proofs.Step

/-! Code in the attributes of tags. What is written as the value of an attribute becomes a binding, or
its text without the quotes. Text that holds a code block is reported when its tag is opened, so the
reports of a page are those of its elements in the order they start in. -/

namespace ServerPages

namespace Attribute

/-- The attribute starts some text. -/
def IsRead (a : Attribute) : Prop := ∃ start rest, read? start = some (a, rest)

theorem isRead_of_mem_readAll {spaced : Bool} {start : Fragment} {a : Attribute}
    (h : a ∈ (readAll spaced start).1) : a.IsRead := by
  fun_induction readAll spaced start with
  | case1 start _ => simp at h
  | case2 start _ _ => simp at h
  | case3 start _ first rest hread more left hmore ih =>
    rw [hmore] at ih
    rcases List.mem_cons.1 h with rfl | h
    · exact ⟨_, _, hread⟩
    · exact ih h

/-- What is written behind the equals sign of an attribute, without quotes. -/
def written? (a : Attribute) : Option Text :=
  (valueStart? (a.place.text.dropWhile isNameChar)).map AttributeValue.unquote

/-- What is written is a binding as a whole and read as one, or read as literal text. -/
theorem IsRead.value_eq {a : Attribute} (h : a.IsRead) {v : Text} (hv : a.written? = some v) :
    (∃ body, v = AttributeValue.bindingText body ∧ a.value = AttributeValue.ofBinding body) ∨
      (∀ body, v ≠ AttributeValue.bindingText body) ∧ a.value = .text v := by
  obtain ⟨⟨offset, t⟩, rest, hread⟩ := h
  have hchars : (t.takeWhile isNameChar).all isNameChar = true := List.all_takeWhile
  have hr := Text.head?_dropWhile isNameChar t
  have hsplit : t = t.takeWhile isNameChar ++ t.dropWhile isNameChar :=
    List.takeWhile_append_dropWhile.symm
  generalize t.takeWhile isNameChar = name at hchars hsplit
  generalize t.dropWhile isNameChar = r at hr hsplit
  subst hsplit
  by_cases hname : name = []
  · have hnil : r.takeWhile isNameChar = [] := by
      simpa using Text.takeWhile_exact (show List.all [] isNameChar = true from rfl) hr
    simp [read?, hname, hnil] at hread
  rw [read?_name hname hchars hr] at hread
  cases hvalue : value? r with
  | none =>
    rw [hvalue] at hread
    cases hread
    have hend : ∀ c ∈ List.head? ([] : Text), isNameChar c = false := by simp
    have hnone : name.dropWhile isNameChar = [] := by simpa using Text.dropWhile_exact hchars hend
    simp [written?, hnone, valueStart?, Text.trimStart] at hv
  | some parts =>
    obtain ⟨raw, after⟩ := parts
    rw [hvalue] at hread
    cases hread
    obtain ⟨start, hstart, hrest, rfl⟩ := value?_eq_some_iff.1 hvalue
    obtain ⟨gap, rfl, hcut⟩ := exists_of_valueStart? hstart
    obtain ⟨raw', inner, heq, hencloses⟩ := AttributeValue.exists_encloses (List.mem_of_head? hrest)
    obtain rfl := List.append_cancel_right heq
    have hplace : Text.upTo (name ++ (gap ++ (raw ++ rest))) rest = name ++ (gap ++ raw) := by
      simpa using Text.upTo_append (name ++ (gap ++ raw)) rest
    have hgap : (name ++ (gap ++ raw)).dropWhile isNameChar = gap ++ raw :=
      Text.dropWhile_exact hchars (Text.boundary_of_append rest (by simpa using hr))
    have hinner : inner = v := by
      simpa [written?, hplace, hgap, hcut raw rest rfl, hencloses.unquote_eq] using hv
    rw [← hinner]
    exact hencloses.ofRaw_eq

def codeReport? (a : Attribute) : Option Problem :=
  match a.value with
  | .text value =>
    if Builder.hasCode value then some ⟨.codeInServerTag a.name, a.place.span⟩ else none
  | _ => none

end Attribute

def Defect.isCodeInServerTag : Defect → Bool
  | .codeInServerTag _ => true
  | _ => false

def Tag.codeReports (tag : Tag) : List Problem := tag.attributes.filterMap Attribute.codeReport?

theorem Tag.exists_of_mem_codeReports {tag : Tag} {p : Problem} (h : p ∈ tag.codeReports) :
    ∃ a ∈ tag.attributes, p = ⟨.codeInServerTag a.name, a.place.span⟩ := by
  obtain ⟨a, ha, hreport⟩ := List.mem_filterMap.1 h
  refine ⟨a, ha, ?_⟩
  unfold Attribute.codeReport? at hreport
  split at hreport
  · split at hreport
    · exact (Option.some.inj hreport).symm
    · cases hreport
  · cases hreport

def Event.codeReports : Event → List Problem
  | .enter tag => tag.codeReports
  | _ => []

namespace Builder

def keep (parts : List Attribute × List Attribute) (a : Attribute) : List Attribute × List Attribute :=
  if parts.1.any (·.name.same a.name) then (parts.1, a :: parts.2) else (a :: parts.1, parts.2)

theorem separate_eq (attributes : List Attribute) : separate attributes =
    ((attributes.foldl keep ([], [])).1.reverse, (attributes.foldl keep ([], [])).2.reverse) := rfl

theorem separate_concat (attributes : List Attribute) (a : Attribute) :
    separate (attributes ++ [a]) =
      if (separate attributes).1.any (·.name.same a.name) then
        ((separate attributes).1, (separate attributes).2 ++ [a])
      else ((separate attributes).1 ++ [a], (separate attributes).2) := by
  simp only [separate_eq, List.foldl_append, List.foldl_cons, List.foldl_nil, List.any_reverse]
  rw [keep]
  split <;> simp

/-- Every attribute is kept or repeated. -/
theorem perm_separate (attributes : List Attribute) :
    ((separate attributes).1 ++ (separate attributes).2).Perm attributes := by
  induction attributes using List.reverseRecOn with
  | nil => exact .refl _
  | append_singleton attributes a ih =>
    rw [separate_concat]
    split
    · rw [← List.append_assoc]
      exact ih.append_right _
    · rw [List.append_assoc]
      exact (List.perm_append_comm.append_left _).trans (by simpa using ih.append_right [a])

theorem mem_of_mem_separate {attributes : List Attribute} {a : Attribute}
    (h : a ∈ (separate attributes).1) : a ∈ attributes :=
  (perm_separate attributes).subset (List.mem_append_left _ h)

theorem mem_of_mem_repeated {attributes : List Attribute} {a : Attribute}
    (h : a ∈ (separate attributes).2) : a ∈ attributes :=
  (perm_separate attributes).subset (List.mem_append_right _ h)

theorem reportCode_eq (b : Builder) (attributes : List Attribute) :
    b.reportCode attributes = b.note (attributes.filterMap Attribute.codeReport?).reverse := by
  induction attributes generalizing b with
  | nil => rfl
  | cons a attributes ih =>
    rw [reportCode, List.foldl_cons, ← reportCode, ih, List.filterMap_cons, Attribute.codeReport?]
    cases a.value with
    | text value => by_cases hcode : hasCode value = true <;> simp [hcode, note, report]
    | _ => simp

theorem reportRepeated_eq (b : Builder) (repeated : List Attribute) :
    b.reportRepeated repeated =
      b.note (repeated.map fun a => ⟨.duplicateAttribute a.name, a.place.span⟩).reverse := by
  induction repeated generalizing b with
  | nil => rfl
  | cons a repeated ih =>
    rw [reportRepeated, List.foldl_cons, ← reportRepeated, ih, List.map_cons, List.reverse_cons]
    simp [note, report]

/-- Between two moments the walk gains elements whose attributes are read, and the reports of code are
theirs, in the order they are entered in. -/
def CodeStep (b b' : Builder) : Prop :=
  ∃ reports events, b'.problems = reports ++ b.problems ∧ b'.walk = b.walk ++ events ∧
    reports.reverse.filter (·.defect.isCodeInServerTag) = events.flatMap Event.codeReports ∧
    ∀ tag, .enter tag ∈ events → ∀ a ∈ tag.attributes, a.IsRead

theorem CodeStep.refl (b : Builder) : b.CodeStep b := ⟨[], [], by simp, by simp, rfl, by simp⟩

theorem CodeStep.trans {a b c : Builder} (h1 : a.CodeStep b) (h2 : b.CodeStep c) : a.CodeStep c := by
  obtain ⟨earlier, before, hp1, hw1, hc1, hr1⟩ := h1
  obtain ⟨later, after, hp2, hw2, hc2, hr2⟩ := h2
  refine ⟨later ++ earlier, before ++ after, by simp [hp2, hp1], by simp [hw2, hw1], ?_, ?_⟩
  · rw [List.reverse_append, List.filter_append, hc1, hc2, List.flatMap_append]
  · intro tag htag
    rcases List.mem_append.1 htag with h | h
    · exact hr1 tag h
    · exact hr2 tag h

theorem codeStep_note (b : Builder) {reports : List Problem}
    (h : ∀ p ∈ reports, p.defect.isCodeInServerTag = false) : b.CodeStep (b.note reports) := by
  refine ⟨reports, [], rfl, by simp, ?_, by simp⟩
  rw [List.flatMap_nil, List.filter_eq_nil_iff]
  intro p hp
  simp [h p (List.mem_reverse.1 hp)]

theorem codeStep_report (b : Builder) {defect : Defect} (span : Span)
    (h : defect.isCodeInServerTag = false) : b.CodeStep (b.report defect span) :=
  show b.CodeStep (b.note [⟨defect, span⟩]) from b.codeStep_note (by simpa using h)

theorem codeStep_push (b : Builder) {node : Node} (h : ∀ parent, node.walk parent = [.pass parent node]) :
    b.CodeStep (b.push node) :=
  ⟨[], [.pass b.parent? node], by simp, by rw [walk_push, h], rfl, by simp⟩

theorem codeStep_pushLiteral (b : Builder) (place : Fragment) : b.CodeStep (b.pushLiteral place) := by
  unfold pushLiteral
  split
  · exact .refl b
  · exact b.codeStep_push fun _ => by simp [Node.walk]

theorem codeStep_text (b : Builder) (place : Fragment) : b.CodeStep (b.text place) := by
  unfold text
  split
  · exact (b.codeStep_report _ rfl).trans (codeStep_pushLiteral _ _)
  · exact b.codeStep_pushLiteral _

theorem codeStep_reportRepeated (b : Builder) (repeated : List Attribute) :
    b.CodeStep (b.reportRepeated repeated) := by
  rw [reportRepeated_eq]
  refine b.codeStep_note fun p hp => ?_
  obtain ⟨a, -, rfl⟩ := List.mem_map.1 (List.mem_reverse.1 hp)
  rfl

theorem codeStep_directive (b : Builder) (body place : Fragment) :
    b.CodeStep (b.directive body place) := by
  unfold directive
  dsimp only
  refine CodeStep.trans (CodeStep.trans ?_ (codeStep_reportRepeated _ _))
    (codeStep_push _ fun parent => by rw [Node.walk])
  cases (DirectiveBody.read body).leftover with
  | none =>
    dsimp only
    split
    · exact b.codeStep_report _ rfl
    · exact .refl b
  | some leftover =>
    have hleftover := b.codeStep_report leftover.span
      (show (Defect.malformedDirective leftover.text).isCodeInServerTag = false from rfl)
    dsimp only
    split
    · exact hleftover.trans (codeStep_report _ _ rfl)
    · exact hleftover

theorem codeStep_closeInner {b : Builder} {frame : Frame} {outer : List Frame}
    (h : b.stack = frame :: outer) (closing : Closing) : b.CodeStep (b.closeInner closing) := by
  refine ⟨unclosedReports frame.tag, _, problems_closeInner h closing, walk_closeInner h closing, ?_,
    by simp⟩
  unfold unclosedReports
  split <;> rfl

theorem codeStep_closeTag (b : Builder) (name : Text) (place : Fragment) :
    b.CodeStep (b.closeTag name place) := by
  unfold closeTag
  split
  · next hopen =>
    refine closeThrough_induction (P := fun c => b.CodeStep c) (Q := fun c => b.CodeStep c)
      ?_ ?_ (.refl b) hopen
    · intro c frame outer hc hs _
      exact hc.trans (codeStep_closeInner hs _)
    · intro c frame outer hc hs _
      exact hc.trans ⟨[], _, by simp [leave], walk_leave hs _, rfl, by simp⟩
  · split
    · exact b.codeStep_report _ rfl
    · exact b.codeStep_pushLiteral _

section

variable {tag : Tag} (hread : ∀ a ∈ tag.attributes, a.IsRead)

include hread

/-- Any events that enter one element go with the reports of its attributes. -/
theorem codeStep_reportCode {b b' : Builder} (events : List Event)
    (hproblems : b'.problems = (b.reportCode tag.attributes).problems)
    (hwalk : b'.walk = b.walk ++ .enter tag :: events)
    (hevents : ∀ inner, .enter inner ∉ events) : b.CodeStep b' := by
  refine ⟨tag.codeReports.reverse, .enter tag :: events, by rw [hproblems, reportCode_eq]; rfl, hwalk,
    ?_, ?_⟩
  · have hnone : events.flatMap Event.codeReports = [] := by
      rw [List.flatMap_eq_nil_iff]
      intro event hevent
      cases event with
      | enter inner => exact absurd hevent (hevents inner)
      | _ => rfl
    rw [List.flatMap_cons, hnone, List.append_nil, List.reverse_reverse]
    refine List.filter_eq_self.2 fun p hp => ?_
    obtain ⟨_, -, rfl⟩ := Tag.exists_of_mem_codeReports hp
    rfl
  · intro inner hinner
    rcases List.mem_cons.1 hinner with h | h
    · cases h; exact hread
    · exact absurd h (hevents inner)

theorem codeStep_enter (b : Builder) : b.CodeStep
    { b.reportCode tag.attributes with stack := ⟨tag, []⟩ :: (b.reportCode tag.attributes).stack } :=
  codeStep_reportCode hread [] rfl (by rw [walk_enter, reportCode_eq, note_walk]) (by simp)

theorem codeStep_selfClosing (b : Builder) :
    b.CodeStep ((b.reportCode tag.attributes).push (.element tag .selfClosing [])) :=
  codeStep_reportCode hread [.leave tag .selfClosing []] (push_problems _)
    (by rw [walk_push, reportCode_eq, note_walk]; simp [Node.walk, Node.walkAll]) (by simp)

end

theorem codeStep_openTag (b : Builder) (name : Text) (attributes : Fragment) (selfClosing : Bool)
    (place : Fragment) : b.CodeStep (b.openTag name attributes selfClosing place).1 := by
  have hread : ∀ a ∈ (separate (Attribute.ofTag attributes)).1, a.IsRead := fun a ha =>
    Attribute.isRead_of_mem_readAll (mem_of_mem_separate ha)
  unfold openTag
  dsimp only
  split
  · exact b.codeStep_pushLiteral _
  · refine (b.codeStep_reportRepeated (separate (Attribute.ofTag attributes)).2).trans ?_
    split
    · exact @codeStep_selfClosing ⟨name, _, place, _⟩ hread _
    · exact @codeStep_enter ⟨name, _, place, _⟩ hread _

theorem codeStep_step (b : Builder) (offset : Nat) (t : Text) : b.CodeStep (b.step offset t).1 := by
  unfold step
  split
  · unfold handle
    dsimp only
    split
    · exact .refl b
    · exact b.codeStep_directive _ _
    · exact b.codeStep_push fun _ => by simp [Node.walk]
    · exact b.codeStep_push fun _ => by simp [Node.walk]
    · exact b.codeStep_openTag _ _ _ _
    · exact b.codeStep_closeTag _ _
    · exact b.codeStep_text _
    · exact b.codeStep_report _ rfl
    · exact b.codeStep_report _ rfl
    · exact (b.codeStep_report _ rfl).trans (codeStep_pushLiteral _ _)
    · exact (b.codeStep_report _ rfl).trans (codeStep_pushLiteral _ _)
    · exact (b.codeStep_report _ rfl).trans (codeStep_closeTag _ _ _)
  · exact b.codeStep_pushLiteral _

theorem codeStep_run (b : Builder) (offset : Nat) (t : Text) : b.CodeStep (b.run offset t) := by
  fun_induction run b offset t with
  | case1 b offset => exact .refl b
  | case2 b offset t ht next ih => exact (b.codeStep_step offset t).trans ih

theorem codeStep_closeAll (b : Builder) : b.CodeStep b.closeAll ∧ b.closeAll.stack = [] :=
  closeAll_induction (P := fun c => b.CodeStep c)
    (fun _ _ _ hc hs => hc.trans (codeStep_closeInner hs _)) (.refl b)

end Builder

namespace Node

theorem enter_mem_walkAll (parent : Option Tag) (nodes : List Node) {tag : Tag} {closing : Closing}
    {children : List Node} (h : .element tag closing children ∈ withinAll nodes) :
    .enter tag ∈ walkAll parent nodes :=
  walkAll_element_subset parent nodes h (List.mem_cons_self ..)

end Node

/-- Code in the attributes of the elements of a page. A written value that holds a code mark is a
binding as a whole, or starts with `<%$`, or is reported with its attribute; and the reports are those
of the elements in the order in which they start. -/
theorem parse_codeInServerTag (source : Text) :
    (parse source).problems.filter (·.defect.isCodeInServerTag) =
      (Node.walkAll none (parse source).nodes).flatMap Event.codeReports ∧
    ∀ tag closing children, .element tag closing children ∈ Node.withinAll (parse source).nodes →
      ∀ a ∈ tag.attributes, ∀ v, a.written? = some v → v.holds ['<', '%'] = true →
        (∃ body, v = AttributeValue.bindingText body ∧ a.value = AttributeValue.ofBinding body) ∨
        (∃ rest, v.trimStart = ['<', '%', '$'] ++ rest ∧ a.value = .text v) ∨
        (a.value = .text v ∧ ⟨.codeInServerTag a.name, a.place.span⟩ ∈ (parse source).problems) := by
  obtain ⟨hclose, hstack⟩ := (Builder.empty.run 0 source).codeStep_closeAll
  obtain ⟨reports, events, hproblems, hwalk, hreports, hread⟩ :=
    (Builder.codeStep_run .empty 0 source).trans hclose
  have hevents : Node.walkAll none (parse source).nodes = events := by
    have hempty : Builder.empty.walk = [] := by simp [Builder.walk, Builder.empty, Node.walkAll]
    rw [hempty, Builder.walk, hstack] at hwalk
    rw [parse]
    simpa using hwalk
  have hknown : (parse source).problems = reports.reverse := by
    rw [parse, hproblems]
    exact congrArg List.reverse (List.append_nil reports)
  have hfilter : (parse source).problems.filter (·.defect.isCodeInServerTag) =
      (Node.walkAll none (parse source).nodes).flatMap Event.codeReports := by
    rw [hknown, hreports, hevents]
  refine ⟨hfilter, ?_⟩
  intro tag closing children hmem a ha v hv hholds
  have henter := Node.enter_mem_walkAll none _ hmem
  rcases (hread tag (hevents ▸ henter) a ha).value_eq hv with hbinding | ⟨-, htext⟩
  · exact .inl hbinding
  cases hcode : Builder.hasCode v with
  | false =>
    rw [Builder.hasCode, hholds, Bool.true_and, Option.isNone_eq_false_iff, Option.isSome_iff_exists] at hcode
    obtain ⟨rest, hrest⟩ := hcode
    exact .inr (.inl ⟨rest, Text.after?_eq_some hrest, htext⟩)
  | true =>
    have hreport : ⟨.codeInServerTag a.name, a.place.span⟩ ∈
        (parse source).problems.filter (·.defect.isCodeInServerTag) := by
      rw [hfilter]
      refine List.mem_flatMap.2 ⟨_, henter, List.mem_filterMap.2 ⟨a, ha, ?_⟩⟩
      simp [Attribute.codeReport?, htext, hcode]
    exact .inr (.inr ⟨htext, (List.mem_filter.1 hreport).1⟩)

/-- whether some server element has an attribute of this value, written so -/
def Node.hasServerValue (written : Text) (value : AttributeValue) : Node → Bool
  | .element tag _ _ =>
    tag.isServer && tag.attributes.any fun a => a.written? == some written && a.value == value
  | _ => false

/-- Neither a code block behind an expression nor one between the two ends of a binding is reported. -/
theorem parse_codeInServerTag_silent :
    (let page := parse "<asp:Label Text=\"<%$ A:b %><%= c %>\" runat=\"server\" />".toList;
      page.problems = [] ∧ (Node.withinAll page.nodes).any (Node.hasServerValue
        "<%$ A:b %><%= c %>".toList (.text "<%$ A:b %><%= c %>".toList)) = true) ∧
    (let page := parse "<asp:Label Text=\"<%# a %> and <%= b %>\" runat=\"server\" />".toList;
      page.problems = [] ∧ (Node.withinAll page.nodes).any (Node.hasServerValue
        "<%# a %> and <%= b %>".toList (.binding " a %> and <%= b ".toList false)) = true) := by
  decide +kernel

end ServerPages
