import ServerPages.Proofs.Invariant

/-! Tags that end with `/>`. The slash closes the tag, unless a value without quotes stands in front of
it: that takes the slash, and the tag is left open. -/

namespace ServerPages

theorem Text.getLast?_ne {p : Char → Bool} {t : Text} {c : Char} (h : t.all p = true) (hc : p c = false) :
    t.getLast? ≠ some c := by
  intro hlast
  simpa [hc] using List.all_eq_true.1 h c (List.mem_of_getLast? hlast)

/-- The text ends with an equals sign and a value without quotes, which ends in a slash. -/
def EndsInBareSlash (t : Text) : Prop :=
  ∃ front blank value, t = front ++ '=' :: (blank ++ (value ++ ['/'])) ∧
    blank.all Text.isSpace = true ∧ value.all AttributeValue.isBare = true

def SlashIsBare (t : Text) : Prop := t.getLast? = some '/' → EndsInBareSlash t

namespace SlashIsBare

theorem nil : SlashIsBare [] := by simp [SlashIsBare]

theorem of_all {p : Char → Bool} {t : Text} (h : t.all p = true) (hp : p '/' = false) :
    SlashIsBare t :=
  fun hlast => absurd hlast (Text.getLast?_ne h hp)

theorem append {front t : Text} (hfront : SlashIsBare front) (ht : SlashIsBare t) :
    SlashIsBare (front ++ t) := by
  intro hlast
  rcases List.eq_nil_or_concat t with rfl | ⟨u, c, rfl⟩
  · rw [List.append_nil] at hlast ⊢
    exact hfront hlast
  · obtain ⟨before, blank, value, heq, hblank, hvalue⟩ := ht (by simpa using hlast)
    exact ⟨front ++ before, blank, value, by rw [heq, List.append_assoc], hblank, hvalue⟩

theorem value {blank raw : Text} (hblank : blank.all Text.isSpace = true) (hraw : raw ≠ [])
    (hbare : raw.getLast? = some '/' → raw.all AttributeValue.isBare = true) :
    SlashIsBare ('=' :: (blank ++ raw)) := by
  intro hlast
  obtain ⟨value, c, rfl⟩ := (List.eq_nil_or_concat raw).resolve_left hraw
  obtain rfl : c = '/' := by simpa [List.getLast?_cons] using hlast
  have hvalue := hbare (by simp)
  rw [List.concat_eq_append, List.all_append, Bool.and_eq_true] at hvalue
  exact ⟨[], blank, value, by simp, hblank, hvalue.1⟩

end SlashIsBare

namespace AttributeValue

/-- Only a value without quotes ends in a slash. -/
theorem bare_of_mem_rests {t rest : Text} (h : rest ∈ rests t) :
    ∃ raw, t = raw ++ rest ∧ raw ≠ [] ∧ (raw.getLast? = some '/' → raw.all isBare = true) := by
  obtain ⟨raw, inner, rfl, henclosed⟩ := exists_encloses h
  have hraw : raw ≠ [] := by
    rintro rfl
    exact absurd (length_lt_of_mem_rests h) (by simp)
  refine ⟨raw, rfl, hraw, fun hlast => ?_⟩
  rcases henclosed with ⟨c, hc, rfl⟩ | ⟨rfl, hfirst, -⟩
  · have hslash : c = '/' := by simpa [List.getLast?_cons] using hlast
    subst hslash
    cases hc
  obtain ⟨c, raw, rfl⟩ := List.exists_cons_of_ne_nil hraw
  rw [List.cons_append, rests, if_neg (by simp [hfirst c rfl])] at h
  split at h
  · next hbare =>
    have hwhole := List.takeWhile_append_dropWhile (p := isBare) (l := raw ++ rest)
    rw [← List.mem_singleton.1 h] at hwhole
    rw [← List.append_cancel_right hwhole]
    simp [hbare]
  · obtain ⟨body, hbody⟩ := eq_of_mem_bindingRests h
    rw [List.nil_append, ← List.cons_append] at hbody
    rw [List.append_cancel_right hbody, bindingText] at hlast
    simp at hlast

end AttributeValue

namespace Tag

/-- In front of the end of a tag a slash stands only where a value without quotes ends. -/
theorem Completes.exists_front {t : Text} {e : Ending} (h : Completes e t) :
    ∃ front, t = front ++ e.attributesRest ∧ SlashIsBare front := by
  have hspace : Text.isSpace '/' = false := by decide
  have hchar : Attribute.isNameChar '/' = false := by decide
  induction h with
  | mark _ _ => exact ⟨[], rfl, .nil⟩
  | @absent blank name r hblank hname _ ih =>
    obtain ⟨front, rfl, hfront⟩ := ih
    exact ⟨blank ++ (name ++ front), by simp,
      (SlashIsBare.of_all hblank hspace).append ((SlashIsBare.of_all hname hchar).append hfront)⟩
  | @value blank name r start rest hblank hname hstart hrest _ ih =>
    obtain ⟨front, rfl, hfront⟩ := ih
    obtain ⟨raw, rfl, hraw, hbare⟩ := AttributeValue.bare_of_mem_rests hrest
    obtain ⟨before, after, hbefore, hafter, rfl, -⟩ := Attribute.valueStart?_eq_some_iff.1 hstart
    refine ⟨blank ++ (name ++ (before ++ ('=' :: (after ++ raw) ++ front))), by simp, ?_⟩
    exact (SlashIsBare.of_all hblank hspace).append <| (SlashIsBare.of_all hname hchar).append <|
      (SlashIsBare.of_all hbefore hspace).append <| (SlashIsBare.value hafter hraw hbare).append hfront

end Tag

/-- The slash in front of the end of this tag is the last character of a value without quotes. -/
def TakesSlash (name attributes text : Text) : Prop :=
  text = '<' :: (name ++ (attributes ++ ['>'])) ∧ EndsInBareSlash attributes

/-- A tag that ends with `>` and has a slash in front of it has lost the slash to a value. -/
theorem takesSlash_of_suffix {name attributes blank : Text} (hname : name.all Tag.isNameChar = true)
    (hattributes : SlashIsBare attributes) (hblank : blank.all Text.isSpace = true)
    (h : ['/', '>'] <:+ '<' :: (name ++ (attributes ++ (blank ++ ['>'])))) :
    TakesSlash name attributes ('<' :: (name ++ (attributes ++ (blank ++ ['>'])))) := by
  obtain ⟨front, hfront⟩ := h
  have hbefore : front ++ ['/'] = ['<'] ++ (name ++ (attributes ++ blank)) := by
    refine (List.append_left_inj ['>']).1 ?_
    rw [List.append_assoc]
    exact hfront.trans (by simp)
  have hlast := congrArg List.getLast? hbefore
  simp only [List.getLast?_append, List.getLast?_singleton, Option.some_or] at hlast
  rcases Option.or_eq_some_iff.1 hlast.symm with hrest | ⟨-, hlast⟩
  · rcases Option.or_eq_some_iff.1 hrest with hrest | ⟨-, hlast⟩
    · rcases Option.or_eq_some_iff.1 hrest with hlast | ⟨hnil, hlast⟩
      · exact absurd hlast (Text.getLast?_ne hblank (by decide))
      · rw [List.getLast?_eq_none_iff.1 hnil]
        exact ⟨rfl, hattributes hlast⟩
    · exact absurd hlast (Text.getLast?_ne hname (by decide))
  · cases hlast

/-- An opening tag closes itself if it ends with `/>`, unless a value takes the slash. -/
theorem Lexeme.selfClosing_iff {t name attributes text : Text} {selfClosing : Bool}
    (h : scan t = ⟨.openTag name attributes selfClosing, text⟩) :
    selfClosing = true ↔ ['/', '>'] <:+ text ∧ ¬TakesSlash name attributes text := by
  obtain ⟨e, ht, -, hname, hending, rfl, htext⟩ := exists_of_scan_openTag h
  obtain ⟨blank, hblank, hrest⟩ := (Tag.completes_of_ending? hending).exists_blank
  obtain ⟨_, hfront, hattributes⟩ := (Tag.completes_of_ending? hending).exists_front
  rw [← List.append_cancel_right hfront] at hattributes
  have hwritten : text = '<' :: (name ++ (attributes ++ (blank ++ e.mark))) := by
    refine (List.append_left_inj e.rest).1 (htext.symm.trans ?_)
    rw [ht, hrest]
    simp
  cases hmark : e.selfClosing with
  | true =>
    rw [Tag.Ending.mark, if_pos hmark] at hwritten
    have hlonger : text ≠ '<' :: (name ++ (attributes ++ ['>'])) := by
      intro heq
      have hlength := congrArg List.length (hwritten.symm.trans heq)
      simp at hlength
    have hsuffix : ['/', '>'] <:+ text := ⟨'<' :: (name ++ (attributes ++ blank)), by simp [hwritten]⟩
    exact iff_of_true rfl ⟨hsuffix, fun htakes => hlonger htakes.1⟩
  | false =>
    rw [Tag.Ending.mark, if_neg (by simp [hmark])] at hwritten
    refine iff_of_false Bool.false_ne_true fun ⟨hsuffix, htakes⟩ => htakes ?_
    rw [hwritten] at hsuffix ⊢
    exact takesSlash_of_suffix hname hattributes hblank hsuffix

/-- A tag closes itself where it ends with `/>`, and an element whose tag does is not left open, unless
a value without quotes takes the slash. -/
theorem selfClosing_slash (source : Text) :
    (∀ offset name attributes selfClosing text,
      Lexeme.at? source offset = some ⟨.openTag name attributes selfClosing, text⟩ →
        (selfClosing = true ↔ ['/', '>'] <:+ text ∧ ¬TakesSlash name attributes text)) ∧
    ∀ tag closing children, .element tag closing children ∈ Node.withinAll (parse source).nodes →
      ['/', '>'] <:+ tag.opening.text →
        closing = .selfClosing ∨ ∃ attributes, TakesSlash tag.name attributes tag.opening.text := by
  constructor
  · intro offset name attributes selfClosing text h
    obtain ⟨t, -, hscan⟩ := Option.map_eq_some_iff.1 h
    exact Lexeme.selfClosing_iff hscan
  · intro tag closing children hmem hslash
    by_cases hself : closing = .selfClosing
    · exact .inl hself
    obtain ⟨turn, -, henter⟩ := exists_enter hmem hself
    obtain ⟨-, -, name, attributes, htoken, rfl⟩ := turn.of_enter henter
    have hiff := Lexeme.selfClosing_iff (congrArg (Lexeme.mk · turn.lexeme.text) htoken)
    refine .inr ⟨attributes, Classical.not_not.1 fun htakes => ?_⟩
    cases hiff.2 ⟨hslash, htakes⟩

theorem selfClosing_slash_taken :
    let source := "<asp:Label Text=foo/>".toList
    Lexeme.at? source 0 = some ⟨.openTag "asp:Label".toList " Text=foo/".toList false, source⟩ ∧
      ['/', '>'] <:+ source := by
  decide +kernel

end ServerPages
