import ServerPages.Proofs.Origin

/-! Repeated attributes. Of the attributes of a tag that share a name the first is kept, which every
look-up finds, and the others are reported. Only `runat="server"` is looked for among all of them. -/

namespace ServerPages

namespace Attribute

def sets (a : Attribute) (name text : Text) : Bool := a.name.same name && a.value.asText.same text

theorem find?_append (as bs : List Attribute) (name : Text) :
    find? (as ++ bs) name = (find? as name).or (find? bs name) :=
  List.find?_append

theorem find?_of_same {a b : Text} (h : a.same b = true) (attributes : List Attribute) :
    find? attributes a = find? attributes b := by
  have hsame : ∀ c : Attribute, c.name.same a = c.name.same b := fun c => Text.same_left h
  simp only [find?, hsame]

theorem find?_or_known {attributes : List Attribute} {a : Attribute}
    (h : attributes.any (·.name.same a.name) = true) (name : Text) :
    (find? attributes name).or (find? [a] name) = find? attributes name := by
  by_cases hname : a.name.same name = true
  · have hfound : (find? attributes name).isSome = true := by
      rw [← find?_of_same hname, find?, List.isSome_find?, h]
    exact Option.or_of_isSome hfound
  · have hother : find? [a] name = none := by simp [find?, hname]
    rw [hother, Option.or_none]

end Attribute

namespace Builder

variable {attributes : List Attribute}

/-- The first of the attributes with a name is kept, and found. -/
theorem find?_separate (attributes : List Attribute) (name : Text) :
    Attribute.find? (separate attributes).1 name = Attribute.find? attributes name := by
  induction attributes using List.reverseRecOn with
  | nil => rfl
  | append_singleton attributes a ih =>
    rw [separate_concat, Attribute.find?_append, ← ih]
    split
    · next hknown => rw [Attribute.find?_or_known hknown]
    · rw [Attribute.find?_append]

/-- Every attribute is the first of its name, or repeated. -/
theorem first_or_repeated {a : Attribute} (h : a ∈ attributes) :
    Attribute.find? attributes a.name = some a ∨ a ∈ (separate attributes).2 := by
  induction attributes using List.reverseRecOn with
  | nil => cases h
  | append_singleton attributes next ih =>
    rw [separate_concat, Attribute.find?_append]
    rcases List.mem_append.1 h with h | h
    · rcases ih h with hfirst | hrepeated
      · exact .inl (by rw [hfirst, Option.some_or])
      · refine .inr ?_
        split
        · exact List.mem_append_left _ hrepeated
        · exact hrepeated
    · obtain rfl := List.mem_singleton.1 h
      split
      · exact .inr (by simp)
      · next hnew =>
        have hnone : Attribute.find? attributes a.name = none := by
          rw [← find?_separate, Attribute.find?, ← Option.isNone_iff_eq_none, ← Option.not_isSome,
            List.isSome_find?, Bool.eq_false_iff.2 hnew, Bool.not_false]
        have hfirst : Attribute.find? [a] a.name = some a := by simp [Attribute.find?, Text.same]
        exact .inl (by rw [hnone, Option.none_or, hfirst])

/-- Some attribute sets a name to a text: the kept one of that name, or one that is repeated. -/
theorem any_sets_iff (name text : Text) : attributes.any (·.sets name text) = true ↔
    (∃ v, Attribute.textOf? (separate attributes).1 name = some v ∧ v.same text = true) ∨
      ∃ a ∈ (separate attributes).2, a.sets name text = true := by
  rw [List.any_eq_true]
  constructor
  · rintro ⟨a, ha, hsets⟩
    obtain ⟨hname, htext⟩ := Bool.and_eq_true_iff.1 hsets
    rcases first_or_repeated ha with hfirst | hrepeated
    · rw [Attribute.find?_of_same hname] at hfirst
      exact .inl ⟨a.value.asText, by rw [Attribute.textOf?, find?_separate, hfirst]; rfl, htext⟩
    · exact .inr ⟨a, hrepeated, hsets⟩
  · rintro (⟨v, hv, htext⟩ | ⟨a, ha, hsets⟩)
    · rw [Attribute.textOf?, find?_separate, Option.map_eq_some_iff] at hv
      obtain ⟨a, ha, rfl⟩ := hv
      have hname : a.name.same name = true := by simpa using List.find?_some ha
      exact ⟨a, List.mem_of_find?_eq_some ha, Bool.and_eq_true_iff.2 ⟨hname, htext⟩⟩
    · exact ⟨a, mem_of_mem_repeated ha, hsets⟩

end Builder

/-- A tag is marked with `runat="server"` if the attribute that it keeps says so, or one that repeats a
name does. Of several attributes with a name the first is found, and the others are reported. -/
theorem runatServer_iff (source : Text) {tag : Tag} {closing : Closing} {children : List Node}
    (h : .element tag closing children ∈ Node.withinAll (parse source).nodes) :
    ∃ name text selfClosing,
      Lexeme.at? source tag.opening.offset =
        some ⟨.openTag name text selfClosing, tag.opening.text⟩ ∧
      let written := Attribute.ofTag
        ⟨(Token.openTag name text selfClosing).innerOffset tag.opening.offset, text⟩
      let repeated := (Builder.separate written).2
      (∀ name, tag.attribute? name = Attribute.textOf? written name) ∧
      (∀ a ∈ repeated, ⟨.duplicateAttribute a.name, a.place.span⟩ ∈ (parse source).problems) ∧
      (tag.runatServer = true ↔
        (∃ v, tag.attribute? "runat".toList = some v ∧ v.same "server".toList = true) ∨
          ∃ a ∈ repeated, a.sets "runat".toList "server".toList = true) := by
  obtain ⟨turn, hturn, hraw, hpart, name, text, selfClosing, htoken, rfl⟩ :=
    exists_opens (Node.enter_mem_walkAll none _ h)
  refine ⟨name, text, selfClosing, ?_, fun name => ?_, fun a ha => ?_, Builder.any_sets_iff _ _⟩
  · exact (Turn.at?_offset hturn).trans (congrArg (some <| Lexeme.mk · turn.lexeme.text) htoken)
  · exact congrArg (Option.map (·.value.asText)) (Builder.find?_separate _ name)
  · have hpart : (Tag.ofLexeme name ⟨(Token.openTag name text selfClosing).innerOffset turn.lexeme.offset,
        text⟩ turn.lexeme).textPart?.isSome = false :=
      Option.isSome_eq_false_iff.2 (Option.isNone_iff_eq_none.2 hpart)
    refine mem_problems_of_mem_remarks hturn ?_
    rw [Turn.remarks_eq hraw, htoken, Builder.remarks, hpart]
    exact List.mem_append_left _ (List.mem_map_of_mem ha)

/-- whether the element counts as marked with `runat="server"` while the `runat` it keeps is `written` -/
def Node.isMarkedDespite (written : Text) : Node → Bool
  | .element tag _ _ => tag.runatServer && tag.attribute? "runat".toList == some written
  | _ => false

/-- A second `runat` marks the tag that keeps the first. -/
theorem runatServer_despite_kept :
    (Node.withinAll (parse "<p runat=\"client\" runat=\"server\">x</p>".toList).nodes).any
      (Node.isMarkedDespite "client".toList) = true := by
  decide +kernel

theorem runatServer_iff_paragraph :
    let page := parse "<p runat=\"client\" runat=\"server\">x</p>".toList
    ∃ tag closing children, .element tag closing children ∈ Node.withinAll page.nodes ∧
      tag.runatServer = true ∧ ∃ a : Attribute, a.sets "runat".toList "server".toList = true ∧
        ⟨.duplicateAttribute a.name, a.place.span⟩ ∈ page.problems := by
  intro page
  have hany : (Node.withinAll page.nodes).any (Node.isMarkedDespite "client".toList) = true := by
    decide +kernel
  obtain ⟨node, hmem, hnode⟩ := List.any_eq_true.1 hany
  cases node with
  | element tag closing children =>
    obtain ⟨hmarked, hkept⟩ := Bool.and_eq_true_iff.1 hnode
    obtain ⟨name, text, selfClosing, -, -, hreported, hiff⟩ := runatServer_iff _ hmem
    rcases hiff.1 hmarked with ⟨v, hv, hserver⟩ | ⟨a, ha, hsets⟩
    · rw [eq_of_beq hkept, Option.some.injEq] at hv
      rw [← hv] at hserver
      exact absurd hserver (by decide)
    · exact ⟨tag, closing, children, hmem, hmarked, a, hsets, hreported a ha⟩
  | _ => cases hnode

end ServerPages
