import ServerPages.Proofs.Lowered
import ServerPages.Proofs.Progress

/-! The tree and the problems of a page with all their texts in lower case. Kinds, places and flags stay as
they are, and so do the spans; what a tag is, on the server or plain, raw or void, does not depend on case. -/

namespace ServerPages

namespace Fragment

@[simp] theorem lower_lower (f : Fragment) : f.lower.lower = f.lower := by simp [lower]

@[simp] theorem span_lower (f : Fragment) : f.lower.span = f.span := by simp [lower, span]

end Fragment

namespace AttributeValue

@[simp] theorem lower_lower (v : AttributeValue) : v.lower.lower = v.lower := by
  cases v <;> simp [lower]

theorem asText_lower (v : AttributeValue) : v.lower.asText = v.asText.lower := by cases v <;> rfl

end AttributeValue

namespace Attribute

@[simp] theorem lower_lower (a : Attribute) : a.lower.lower = a.lower := by simp [lower]

theorem ofTag_lower (start : Fragment) : ofTag start.lower = (ofTag start).map lower := by
  rw [ofTag, readAll_lower, ofTag]

end Attribute

def Closing.lower : Closing → Closing
  | .closed tag => .closed tag.lower
  | closing => closing

@[simp] theorem Closing.lower_lower (c : Closing) : c.lower.lower = c.lower := by
  cases c <;> simp [lower]

namespace Tag

def lower (tag : Tag) : Tag :=
  ⟨tag.name.lower, tag.attributes.map Attribute.lower, tag.opening.lower, tag.runatServer⟩

@[simp] theorem lower_lower (tag : Tag) : tag.lower.lower = tag.lower := by simp [lower]

theorem splitName_lower (name : Text) :
    splitName name.lower = Prod.map (Option.map Text.lower) Text.lower (splitName name) := by
  simp only [splitName, Text.cut?_lower (m := [':']) (by decide)]
  cases name.cut? [':'] with
  | none => rfl
  | some parts =>
    simp only [Option.map_some, Prod.map, Text.isEmpty_lower]
    split <;> rfl

theorem scope?_lower (tag : Tag) : tag.lower.scope? = tag.scope?.map Text.lower := by
  rw [scope?, lower, splitName_lower]
  rfl

@[simp] theorem isServer_lower (tag : Tag) : tag.lower.isServer = tag.isServer := by
  rw [isServer, scope?_lower, Option.isSome_map]
  rfl

theorem isNamed_lower (tag : Tag) : tag.lower.isNamed = tag.isNamed := by
  funext name
  rw [isNamed, localName, lower, splitName_lower]
  exact Text.same_lower_left _ name

@[simp] theorem isRaw_lower (tag : Tag) : Builder.isRaw tag.lower = Builder.isRaw tag := by
  rw [Builder.isRaw, isNamed_lower, scope?_lower, Option.isNone_map, Builder.isRaw]

@[simp] theorem isVoid_lower (tag : Tag) : Builder.isVoid tag.lower = Builder.isVoid tag := by
  rw [Builder.isVoid, isNamed_lower, scope?_lower, Option.isNone_map, Builder.isVoid]

end Tag

def Directive.lower (d : Directive) : Directive :=
  ⟨d.name.lower, d.attributes.map Attribute.lower, d.place.lower⟩

@[simp] theorem Directive.lower_lower (d : Directive) : d.lower.lower = d.lower := by simp [lower]

namespace Node

mutual

/-- The node with all its texts in lower case, where it was. -/
def lower : Node → Node
  | .directive d => .directive d.lower
  | .element tag closing children => .element tag.lower closing.lower (lowerAll children)
  | .literal place => .literal place.lower
  | .code kind body place => .code kind body.lower place.lower
  | .binding expression encode place => .binding expression.lower encode place.lower

def lowerAll : List Node → List Node
  | [] => []
  | node :: nodes => node.lower :: lowerAll nodes

end

theorem lowerAll_eq (nodes : List Node) : lowerAll nodes = nodes.map lower := by
  induction nodes with
  | nil => rfl
  | cons node nodes ih => rw [lowerAll, ih, List.map_cons]

mutual

@[simp] theorem lower_lower (node : Node) : node.lower.lower = node.lower := by
  cases node with
  | element tag closing children => simp [lower, lowerAll_lowerAll children]
  | _ => simp [lower]

theorem lowerAll_lowerAll (nodes : List Node) : lowerAll (lowerAll nodes) = lowerAll nodes := by
  cases nodes with
  | nil => rfl
  | cons node nodes => simp [lowerAll, lower_lower node, lowerAll_lowerAll nodes]

end

mutual

theorem within_lower (node : Node) : node.lower.within = node.within.map lower := by
  cases node with
  | element tag closing children => simp [lower, within, withinAll_lower children]
  | _ => simp [lower, within]

theorem withinAll_lower (nodes : List Node) :
    withinAll (lowerAll nodes) = (withinAll nodes).map lower := by
  cases nodes with
  | nil => rfl
  | cons node nodes => simp [lowerAll, withinAll, within_lower node, withinAll_lower nodes]

end

theorem spans_lower (node : Node) : node.lower.spans = node.spans := by
  cases node with
  | directive d => simp [lower, spans, Directive.lower, Attribute.lower]
  | element tag closing children =>
    cases closing <;>
      simp [lower, spans, Tag.lower, Attribute.lower, Closing.lower, Closing.pieces]
  | _ => simp [lower, spans]

end Node

namespace Defect

def lower : Defect → Defect
  | .unclosedTag name => .unclosedTag name.lower
  | .unexpectedClosingTag name => .unexpectedClosingTag name.lower
  | .runatOnClosingTag name => .runatOnClosingTag name.lower
  | .malformedServerTag name => .malformedServerTag name.lower
  | .codeInServerTag name => .codeInServerTag name.lower
  | .duplicateAttribute name => .duplicateAttribute name.lower
  | .malformedDirective text => .malformedDirective text.lower
  | .nestedDirective name element => .nestedDirective name.lower element.lower
  | defect => defect

theorem message_lower (d : Defect) : d.lower.message = d.message.lower := by
  cases d <;> unfold message <;> simp [lower, Text.lower]

end Defect

def Problem.lower (p : Problem) : Problem := ⟨p.defect.lower, p.span⟩

theorem Defect.lower_lower (d : Defect) : d.lower.lower = d.lower := by
  cases d <;> simp [lower]

@[simp] theorem Problem.lower_lower (p : Problem) : p.lower.lower = p.lower := by
  simp [lower, Defect.lower_lower]

def Parsed.lower (parsed : Parsed) : Parsed :=
  ⟨parsed.nodes.map Node.lower, parsed.problems.map Problem.lower⟩

theorem Parsed.spans_lower (parsed : Parsed) : parsed.lower.spans = parsed.spans := by
  have hwithin : Node.withinAll (parsed.nodes.map Node.lower) =
      (Node.withinAll parsed.nodes).map Node.lower := by
    rw [← Node.lowerAll_eq, Node.withinAll_lower]
  simp [spans, lower, hwithin, List.flatMap_map, Node.spans_lower, Problem.lower,
    Function.comp_def]

end ServerPages
