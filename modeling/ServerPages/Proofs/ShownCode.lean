import ServerPages.Proofs.Progress

/-! No code block of a page is shown as text. Whatever becomes literal text stops in front of a `<%`, each
kind for its own reason; only the text of a script or style that runs on the server may go on, and a block
without an end is reported where it stands. -/

namespace ServerPages

namespace Text

theorem holds_code_cons {c : Char} {t : Text} (hc : c = '<' → t.head? ≠ some '%')
    (ht : t.holds ['<', '%'] = false) : holds (c :: t) ['<', '%'] = false := by
  have hnone : after? (c :: t) ['<', '%'] = none :=
    after?_code_eq_none.2 fun h => hc h.1 h.2
  simp only [holds, Option.isSome_eq_false_iff, Option.isNone_iff_eq_none] at ht ⊢
  rw [cut?, hnone, ht]
  rfl

theorem holds_code_of_forall {t : Text} (h : ∀ c ∈ t, c ≠ '<') : t.holds ['<', '%'] = false := by
  induction t with
  | nil => rfl
  | cons c t ih =>
    refine holds_code_cons (fun hc => absurd hc (h c (List.mem_cons_self ..))) (ih fun d hd => ?_)
    exact h d (List.mem_cons_of_mem _ hd)

end Text

namespace Tag

theorem ne_mark_of_all {name : Text} (h : name.all isNameChar = true) :
    (∀ c ∈ name, c ≠ '<') ∧ name.head? ≠ some '%' := by
  refine ⟨fun c hc => Text.ne_of_class (List.all_eq_true.1 h c hc) (by decide), fun hhead => ?_⟩
  exact Text.ne_of_class (List.all_eq_true.1 h '%' (List.mem_of_head? hhead)) (by decide) rfl

end Tag

theorem rawText_cons (name : Text) (allowCode : Bool) (c : Char) (t : Text) :
    rawText name allowCode (c :: t) = [] ∨
      rawText name allowCode (c :: t) = c :: rawText name allowCode t := by
  simp only [rawText]
  split
  all_goals
    split
    · exact .inl rfl
    · exact .inr rfl

/-- Raw text that ends at code holds none. -/
theorem holds_rawText (name t : Text) : (rawText name true t).holds ['<', '%'] = false := by
  induction t with
  | nil => rfl
  | cons c t ih =>
    rcases rawText_cons name true c t with hraw | hraw
    · rw [hraw]
      rfl
    · rw [hraw]
      refine Text.holds_code_cons ?_ ih
      rintro rfl hhead
      obtain ⟨rest, hrest⟩ := isPrefix_rawText name true t
      have ht : t.head? = some '%' := by
        rw [← hrest, List.head?_append, hhead]
        rfl
      obtain ⟨u, rfl⟩ := List.head?_eq_some_iff.1 ht
      cases hraw

namespace Tag

variable {tag : Tag} {name attributes mark : Text}

/-- The part of a plain tag that counts as text stops in front of its code. -/
theorem holds_textPart? {before : Text} (h : tag.textPart? = some before)
    (hname : name ≠ []) (hchars : name.all isNameChar = true)
    (htext : tag.opening.text = '<' :: (name ++ mark)) : before.holds ['<', '%'] = false := by
  unfold textPart? at h
  split at h
  · cases h
  · rw [htext] at h
    obtain ⟨⟨front, back⟩, hcut, rfl⟩ := Option.map_eq_some_iff.1 h
    refine Text.holds_code_cons (fun _ hhead => ?_) (Text.holds_of_cut? hcut)
    obtain ⟨c, name, rfl⟩ := List.exists_cons_of_ne_nil hname
    obtain ⟨front, rfl⟩ := List.head?_eq_some_iff.1 hhead
    have hsplit := Text.cut?_eq_some hcut
    simp only [List.cons_append, List.cons.injEq] at hsplit
    exact (ne_mark_of_all hchars).2 (by rw [hsplit.1]; rfl)

/-- A plain tag that counts as an element has no code. -/
theorem holds_opening (h : tag.textPart? = none) (hplain : tag.isServer = false)
    (hname : name ≠ []) (hchars : name.all isNameChar = true)
    (htext : tag.opening.text = '<' :: (name ++ mark)) :
    tag.opening.text.holds ['<', '%'] = false := by
  rw [textPart?, hplain, htext] at h
  have hcut : Text.cut? (name ++ mark) ['<', '%'] = none := Option.map_eq_none_iff.1 h
  rw [htext]
  refine Text.holds_code_cons (fun _ hhead => ?_) (by rw [Text.holds, hcut]; rfl)
  obtain ⟨c, name, rfl⟩ := List.exists_cons_of_ne_nil hname
  cases hhead
  exact (ne_mark_of_all hchars).2 rfl

end Tag

namespace Token

/-- What is written as anything but a block or an opening tag holds no code. -/
theorem Writes.holds_code {token : Token} {text : Text} (h : token.Writes text) :
    match token with
    | .text | .closeTag _ | .malformedServerTag _ | .runatOnClosingTag _ =>
      text.holds ['<', '%'] = false
    | _ => True := by
  cases token with
  | text =>
    obtain ⟨c, rest, rfl, hrest, hmark⟩ := h
    exact Text.holds_code_cons hmark (Text.holds_code_of_forall hrest)
  | closeTag name =>
    obtain ⟨hchars, blank, hblank, rfl⟩ := h
    refine Text.holds_code_cons (by simp) (Text.holds_code_of_forall fun c hc => ?_)
    have hc : c ∈ '/' :: (name ++ (blank ++ ['>'])) := hc
    simp only [List.mem_cons, List.mem_append, List.not_mem_nil, or_false] at hc
    rcases hc with rfl | hc | hc | rfl
    · decide
    · exact (Tag.ne_mark_of_all hchars).1 c hc
    · rintro rfl
      exact absurd (List.all_eq_true.1 hblank _ hc) (by decide)
    · decide
  | malformedServerTag name =>
    obtain ⟨hchars, rfl⟩ := h
    exact Text.holds_code_cons (fun _ => (Tag.ne_mark_of_all hchars).2)
      (Text.holds_code_of_forall (Tag.ne_mark_of_all hchars).1)
  | runatOnClosingTag name =>
    obtain ⟨inside, hinside, rfl⟩ := h
    refine Text.holds_code_cons (by simp) (Text.holds_code_of_forall fun c hc => ?_)
    have hc : c ∈ '/' :: (inside ++ ['>']) := hc
    simp only [List.mem_cons, List.mem_append, List.not_mem_nil, or_false] at hc
    rcases hc with rfl | hc | rfl
    · decide
    · exact hinside c hc
    · decide
  | _ => trivial

end Token

namespace Builder

variable {b : Builder}

theorem eq_of_closing {name : Text} {place literal : Fragment}
    (h : b.closing name place = .add (.literal literal)) : literal = place := by
  rcases b.closing_cases name place with he | he | he <;> rw [he] at h <;> cases h
  rfl

/-- Raw text holds code only in a script or style that runs on the server. -/
theorem exists_of_holds_rawRun {t : Text} (h : (b.rawRun t).holds ['<', '%'] = true) :
    ∃ tag, b.parent? = some tag ∧ isRaw tag = true ∧ tag.runatServer = true := by
  unfold rawRun at h
  cases hstack : b.stack with
  | nil =>
    rw [hstack] at h
    cases h
  | cons frame outer =>
    simp only [hstack] at h
    split at h
    · next hraw =>
      refine ⟨frame.tag, by simp [parent?, hstack], hraw, ?_⟩
      cases hrunat : frame.tag.runatServer with
      | true => rfl
      | false => simp [hrunat, holds_rawText] at h
    · cases h

end Builder

namespace Turn

variable {source : Text} {turn : Turn}

/-- A step that adds literal text with code in it stands in a script or style that runs on the server, or
in front of a block without an end, and reports the block. -/
theorem code_of_literal (h : turn ∈ turns source) {place : Fragment}
    (heffect : turn.effect = .add (.literal place)) (hcode : place.text.holds ['<', '%'] = true) :
    (∃ tag, turn.builder.parent? = some tag ∧ Builder.isRaw tag = true ∧ tag.runatServer = true) ∨
      (['<', '%'] <+: place.text ∧ ⟨.unterminatedCode, place.span⟩ ∈ turn.remarks) := by
  have hwrites := writes_lexeme h
  by_cases hraw : turn.builder.rawRun turn.rest = []
  · rw [effect_eq hraw] at heffect
    rw [remarks_eq hraw]
    cases htoken : turn.token with
    | openTag name attributes selfClosing =>
      rw [htoken] at heffect hwrites
      obtain ⟨hname, hchars, mark, htext⟩ := hwrites
      simp only [Builder.effect, Tag.effect] at heffect
      split at heffect
      · next before hpart =>
        cases heffect
        rw [Tag.holds_textPart? hpart hname hchars htext] at hcode
        cases hcode
      · split at heffect <;> cases heffect
    | unterminatedCode =>
      rw [htoken] at heffect hwrites
      cases heffect
      obtain ⟨rest, htext⟩ := hwrites
      exact .inr ⟨⟨rest, htext.symm⟩, List.mem_singleton_self _⟩
    | text =>
      rw [htoken] at heffect hwrites
      cases heffect
      rw [hwrites.holds_code] at hcode
      cases hcode
    | malformedServerTag name =>
      rw [htoken] at heffect hwrites
      cases heffect
      rw [hwrites.holds_code] at hcode
      cases hcode
    | closeTag name =>
      rw [htoken] at heffect hwrites
      rw [Builder.eq_of_closing heffect, hwrites.holds_code] at hcode
      cases hcode
    | runatOnClosingTag name =>
      rw [htoken] at heffect hwrites
      rw [Builder.eq_of_closing heffect, hwrites.holds_code] at hcode
      cases hcode
    | _ =>
      rw [htoken] at heffect
      cases heffect
  · rw [effect_of_raw hraw] at heffect
    cases heffect
    exact .inl (Builder.exists_of_holds_rawRun hcode)

end Turn

namespace Node

theorem walkAll_children_subset (parent : Option Tag) (nodes : List Node) {tag : Tag}
    {closing : Closing} {children : List Node} (h : .element tag closing children ∈ withinAll nodes) :
    walkAll (some tag) children ⊆ walkAll parent nodes := fun _ hevent =>
  walkAll_element_subset parent nodes h (List.mem_cons_of_mem _ (List.mem_append_left _ hevent))

theorem pass_literal_mem_walkAll (parent : Option Tag) {nodes : List Node} {place : Fragment}
    (h : .literal place ∈ nodes) : .pass parent (.literal place) ∈ walkAll parent nodes := by
  obtain ⟨front, back, rfl⟩ := List.append_of_mem h
  rw [walkAll_append, walkAll, walk]
  exact List.mem_append_right _ (List.mem_append_left _ (List.mem_singleton_self _))

end Node

/-- A literal with code in it stands in a script or style that runs on the server, or it is a block
without an end and reported as one. -/
theorem code_of_pass {source : Text} {parent : Option Tag} {place : Fragment}
    (h : .pass parent (.literal place) ∈ Node.walkAll none (parse source).nodes)
    (hcode : place.text.holds ['<', '%'] = true) :
    (∃ tag, parent = some tag ∧ Builder.isRaw tag = true ∧ tag.runatServer = true) ∨
      (['<', '%'] <+: place.text ∧ ⟨.unterminatedCode, place.span⟩ ∈ (parse source).problems) := by
  obtain ⟨turn, hturn, rfl, heffect⟩ := exists_add h
  rcases Turn.code_of_literal hturn heffect hcode with hraw | ⟨hstart, hremark⟩
  · exact .inl hraw
  · exact .inr ⟨hstart, mem_problems_of_mem_remarks hturn hremark⟩

/-- No code block of a page is shown as text. The opening of a plain element holds no `<%`. A literal
that holds one stands in a script or style that runs on the server, or starts with it and is reported as
a code block without an end. -/
theorem parse_shows_no_code (source : Text) :
    (∀ tag closing children, .element tag closing children ∈ Node.withinAll (parse source).nodes →
      (tag.isServer = false → (tag.opening.span.text source).holds ['<', '%'] = false) ∧
      ∀ place, .literal place ∈ children → place.text.holds ['<', '%'] = true →
        Builder.isRaw tag = true ∧ tag.runatServer = true ∨
          ['<', '%'] <+: place.text ∧ ⟨.unterminatedCode, place.span⟩ ∈ (parse source).problems) ∧
    ∀ place, .literal place ∈ (parse source).nodes → place.text.holds ['<', '%'] = true →
      ['<', '%'] <+: place.text ∧ ⟨.unterminatedCode, place.span⟩ ∈ (parse source).problems := by
  refine ⟨fun tag closing children h => ⟨fun hplain => ?_, fun place hplace hcode => ?_⟩,
    fun place hplace hcode => ?_⟩
  · obtain ⟨turn, hturn, hopens⟩ := exists_opens (Node.enter_mem_walkAll none _ h)
    rw [(hopens.attributes hturn).1.text_span]
    obtain ⟨-, hpart, name, attributes, selfClosing, htoken, rfl⟩ := hopens
    have hwrites := Turn.writes_lexeme hturn
    rw [htoken] at hwrites
    obtain ⟨hname, hchars, mark, htext⟩ := hwrites
    exact Tag.holds_opening hpart hplain hname hchars htext
  · have hpass := Node.walkAll_children_subset none _ h (Node.pass_literal_mem_walkAll _ hplace)
    rcases code_of_pass hpass hcode with ⟨outer, houter, hraw⟩ | hstart
    · cases houter
      exact .inl hraw
    · exact .inr hstart
  · rcases code_of_pass (Node.pass_literal_mem_walkAll none hplace) hcode with ⟨_, houter, -⟩ | hstart
    · cases houter
    · exact hstart

end ServerPages
