import Mathlib.Data.List.TakeWhile
import ServerPages.Proofs.Blocks
import ServerPages.Proofs.LoweredLexeme
import ServerPages.Proofs.Printed

/-! A construct with its end is read the same wherever it stands. Each choice of the grammar is settled
inside the construct: the first terminator of a block, the `>` of a closing tag, the quote that ends a
value. Only a binding in a tag may take up more when a later terminator follows. -/

namespace ServerPages

namespace Text

theorem upTo_append_append (t rest more : Text) : upTo (t ++ more) (rest ++ more) = upTo t rest := by
  rw [upTo, upTo, List.length_append, List.length_append, Nat.add_sub_add_right,
    List.take_append_of_le_length (Nat.sub_le _ _)]

section

variable {p : Char → Bool} {t : Text} (h : t.dropWhile p ≠ [])
include h

theorem dropWhile_append_of_ends (more : Text) : (t ++ more).dropWhile p = t.dropWhile p ++ more := by
  rw [List.dropWhile_append, if_neg (by simpa using h)]

theorem takeWhile_append_of_ends (more : Text) : (t ++ more).takeWhile p = t.takeWhile p := by
  have hlonger := List.takeWhile_append_dropWhile (p := p) (l := t ++ more)
  have hshorter := List.takeWhile_append_dropWhile (p := p) (l := t)
  rw [dropWhile_append_of_ends h, ← List.append_assoc] at hlonger
  exact List.append_cancel_right ((List.append_cancel_right hlonger).trans hshorter.symm)

end

theorem holds_part (front back : Text) {t mark : Text} (hmark : mark ≠ [])
    (h : (front ++ (t ++ back)).holds mark = false) : t.holds mark = false := by
  rw [← Bool.not_eq_true] at h ⊢
  refine mt (fun ht => ?_) h
  obtain ⟨before, after, rfl⟩ := (holds_iff hmark).1 ht
  exact (holds_iff hmark).2 ⟨front ++ before, after ++ back, by simp⟩

end Text

namespace Attribute

theorem valueStart?_append {t start : Text} (h : valueStart? t = some start) (hne : start ≠ [])
    (more : Text) : valueStart? (t ++ more) = some (start ++ more) := by
  obtain ⟨before, after, hbefore, hafter, rfl, hstart⟩ := valueStart?_eq_some_iff.1 h
  refine valueStart?_eq_some_iff.2 ⟨before, after, hbefore, hafter, by simp, ?_⟩
  obtain ⟨c, start, rfl⟩ := List.exists_cons_of_ne_nil hne
  exact hstart

theorem valueStart?_append_eq_none {t : Text} (h : valueStart? t = none) (hne : t.trimStart ≠ [])
    (more : Text) : valueStart? (t ++ more) = none := by
  have htrim : (t ++ more).trimStart = t.trimStart ++ more := Text.dropWhile_append_of_ends hne more
  obtain ⟨c, u, hu⟩ := List.exists_cons_of_ne_nil hne
  rw [valueStart?, hu] at h
  rw [valueStart?, htrim, hu, List.cons_append]
  split at h
  · cases h
  · next hequals =>
    split
    · next heq =>
      cases heq
      exact absurd rfl (hequals u)
    · rfl

end Attribute

namespace AttributeValue

/-- A value in which no binding starts has one end, and keeps it whatever follows. -/
theorem rests_append {start raw rest : Text} (h : rest ∈ rests start) (hstart : start = raw ++ rest)
    (hplain : raw.holds bindingMark = false) (hne : rest ≠ []) (more : Text) :
    rests (start ++ more) = [rest ++ more] := by
  have hmark : bindingMark ≠ [] := by decide
  have hno : ∀ front back, raw ≠ front ++ (bindingMark ++ back) := by
    rintro front back rfl
    rw [(Text.holds_iff hmark).2 ⟨front, back, rfl⟩] at hplain
    cases hplain
  have hcut : ∀ other, start = other ++ rest → raw = other := fun _ h =>
    List.append_cancel_right (hstart.symm.trans h)
  cases start with
  | nil => simp [rests] at h
  | cons c t =>
    rw [List.cons_append]
    simp only [rests] at h
    split at h
    · next hquote =>
      rcases List.mem_append.1 h with h | h
      · obtain ⟨body, rfl⟩ := eq_of_mem_bindingRests h
        refine absurd (hcut (c :: (bindingText body ++ [c])) (by simp)) ?_
        have := hno [c] (body ++ ['%', '>'] ++ [c])
        simpa [bindingText] using this
      · obtain ⟨inner, hinner, rfl⟩ := eq_of_mem_quotedRests h
        have hraw := hcut (c :: (inner ++ [c])) (by simp)
        have hmark : inner.after? bindingMark = none := by
          refine Text.after?_eq_none fun u hu => hno [c] (u ++ [c]) ?_
          rw [hraw, hu]
          simp
        simpa using rests_text hquote hinner hmark (rest ++ more)
    · next hquote =>
      split at h
      · next hbare =>
        obtain rfl := List.mem_singleton.1 h
        rw [rests, if_neg hquote, if_pos hbare, Text.dropWhile_append_of_ends hne]
      · obtain ⟨body, hbody⟩ := eq_of_mem_bindingRests h
        have hraw := hcut (bindingText body) (by simpa using hbody)
        exact absurd hraw (by simpa [bindingText] using hno [] (body ++ ['%', '>']))

end AttributeValue

namespace Tag

def Ending.append (e : Ending) (more : Text) : Ending :=
  ⟨e.attributesRest ++ more, e.selfClosing, e.rest ++ more⟩

theorem ne_nil_of_ending? {t : Text} {e : Ending} (h : ending? t = some e) : t.trimStart ≠ [] := by
  intro hnil
  rw [ending?_eq, hnil] at h
  cases h

/-- What is left behind the mark that ends a tag, and the mark with white space in front. -/
theorem ending?_mark {blank : Text} (hblank : blank.all Text.isSpace = true) (e : Ending) (more : Text) :
    ending? (blank ++ (e.mark ++ more)) = some ⟨blank ++ (e.mark ++ more), e.selfClosing, more⟩ := by
  have hboundary : ∀ c ∈ (e.mark ++ more).head?, Text.isSpace c = false := by
    unfold Ending.mark
    split <;> simp [Text.isSpace]
  have htrim : (blank ++ (e.mark ++ more)).trimStart = e.mark ++ more :=
    Text.dropWhile_exact hblank hboundary
  rw [ending?_eq, htrim, Ending.mark]
  cases e.selfClosing with
  | false => simp [mark?_open]
  | true => simp [mark?_close]

theorem ending?_name_append {blank name r : Text} (hne : blank ≠ [])
    (hblank : blank.all Text.isSpace = true) (hname : name ≠ [])
    (hchars : name.all Attribute.isNameChar = true)
    (hr : ∀ c ∈ r.head?, Attribute.isNameChar c = false) (hends : r ≠ []) (more : Text) :
    ending? (blank ++ (name ++ r) ++ more) =
      match Attribute.valueStart? (r ++ more) with
      | none => ending? (r ++ more)
      | some start => (AttributeValue.rests start).findSome? ending? := by
  obtain ⟨c, r, rfl⟩ := List.exists_cons_of_ne_nil hends
  rw [List.append_assoc, List.append_assoc]
  exact ending?_name hne hblank hname hchars hr

/-- A tag in which no binding starts ends at the same place whatever follows. -/
theorem ending?_append {t : Text} {e : Ending} (h : ending? t = some e) :
    ∃ taken, t = taken ++ e.rest ∧
      (taken.holds AttributeValue.bindingMark = false →
        ∀ more, ending? (t ++ more) = some (e.append more)) := by
  induction hn : t.length using Nat.strongRecOn generalizing t with
  | ind n ih =>
    rcases ending?_cases h with
      ⟨blank, hblank, hrest, ht⟩ | ⟨blank, name, r, rfl, hne, hblank, hname, hchars, hboundary, hmore⟩
    · refine ⟨blank ++ e.mark, by simpa using ht, fun _ more => ?_⟩
      have hend := ending?_mark hblank e (e.rest ++ more)
      rw [Ending.append, hrest]
      conv => lhs; rw [ht]
      conv => rhs; rw [ht]
      simpa using hend
    have hlength := List.length_pos_iff.2 hne
    simp only [List.length_append] at hn
    split at hmore
    · next hvalue =>
      obtain ⟨taken, hr, hend⟩ := ih r.length (by omega) hmore rfl
      refine ⟨blank ++ (name ++ taken), by rw [hr]; simp, fun hplain more => ?_⟩
      have htrim := ne_nil_of_ending? hmore
      have hvalue' := Attribute.valueStart?_append_eq_none hvalue htrim more
      rw [ending?_name_append hne hblank hname hchars hboundary (by rintro rfl; exact htrim rfl), hvalue']
      exact hend (Text.holds_part (blank ++ name) [] (by decide) (by simpa using hplain)) more
    · next start hvalue =>
      obtain ⟨rest, hmem, hrest⟩ := List.exists_of_findSome?_eq_some hmore
      obtain ⟨gap, hgap, -⟩ := Attribute.exists_of_valueStart? hvalue
      obtain ⟨raw, hraw⟩ := AttributeValue.exists_of_mem_rests hmem
      have hshorter := AttributeValue.length_lt_of_mem_rests hmem
      have hstart := Attribute.length_valueStart? hvalue
      obtain ⟨taken, htaken, hend⟩ := ih rest.length (by omega) hrest rfl
      refine ⟨blank ++ (name ++ (gap ++ (raw ++ taken))), ?_, fun hplain more => ?_⟩
      · rw [hgap, hraw, htaken]
        simp
      have hrest_ne : rest ≠ [] := by
        rintro rfl
        exact ne_nil_of_ending? hrest rfl
      have hstart_ne : start ≠ [] := by
        rintro rfl
        cases hmem
      have hraw_plain : raw.holds AttributeValue.bindingMark = false :=
        Text.holds_part (blank ++ (name ++ gap)) taken (by decide) (by simpa using hplain)
      have hr : r ≠ [] := by
        rintro rfl
        simp at hstart
      rw [ending?_name_append hne hblank hname hchars hboundary hr,
        Attribute.valueStart?_append hvalue hstart_ne]
      simp only [AttributeValue.rests_append hmem hraw hraw_plain hrest_ne, List.findSome?_cons]
      rw [hend (Text.holds_part (blank ++ (name ++ (gap ++ raw))) [] (by decide) (by simpa using hplain)) more]

theorem closing?_append {t : Text} (h : Text.trimStart (t.dropWhile isNameChar) ≠ []) (more : Text) :
    closing? (t ++ more) = (closing? t).map fun parts => (parts.1, parts.2 ++ more) := by
  have hdrop : t.dropWhile isNameChar ≠ [] := by
    intro hnil
    exact h (by rw [hnil]; rfl)
  have htrim : Text.trimStart (t.dropWhile isNameChar ++ more) =
      Text.trimStart (t.dropWhile isNameChar) ++ more := Text.dropWhile_append_of_ends h more
  rw [closing?_eq, closing?_eq, Text.takeWhile_append_of_ends hdrop, Text.dropWhile_append_of_ends hdrop,
    htrim]
  split
  · rfl
  · cases hafter : Text.after? (Text.trimStart (t.dropWhile isNameChar)) ['>'] with
    | some rest => rw [Text.after?_append_eq_some hafter]; rfl
    | none => rw [Text.after?_append_eq_none hafter (List.length_pos_iff.2 h)]; rfl

theorem trimStart_ne_nil_of_mem {t : Text} (h : '>' ∈ t) :
    Text.trimStart (t.dropWhile isNameChar) ≠ [] := by
  have hdrop : '>' ∈ t.dropWhile isNameChar := by
    rw [← List.takeWhile_append_dropWhile (p := isNameChar) (l := t)] at h
    refine (List.mem_append.1 h).resolve_left fun hname => ?_
    exact Text.ne_of_class (List.all_eq_true.1 List.all_takeWhile _ hname) (by decide) rfl
  intro hnil
  have hspace : Text.isSpace '>' = true := List.dropWhile_eq_nil_iff.1 hnil '>' hdrop
  revert hspace
  decide

/-- The inside of a tag that stops in the text stops there whatever follows. -/
theorem inside_append {t : Text} (h : t.drop (inside t).length ≠ []) (more : Text) :
    inside (t ++ more) = inside t ∧
      (t ++ more).drop (inside t).length = t.drop (inside t).length ++ more := by
  have hle : (inside t).length ≤ t.length := (List.takeWhile_prefix _).length_le
  have hsplit : inside t ++ t.dropWhile (fun c => c != '<' && c != '>') = t :=
    List.takeWhile_append_dropWhile
  refine ⟨Text.takeWhile_append_of_ends (fun hnil => h ?_) more, List.drop_append_of_le_length hle⟩
  rw [hnil, List.append_nil] at hsplit
  rw [hsplit, List.drop_length]

end Tag

namespace Lexeme

/-- whether the construct has its end, and could not have taken another: of opening tags, those in which no
binding starts -/
def isComplete (lexeme : Lexeme) : Bool :=
  match lexeme.token with
  | .comment | .directive _ | .code _ _ | .binding _ _ | .closeTag _ | .runatOnClosingTag _ => true
  | .openTag _ _ _ => !lexeme.text.holds AttributeValue.bindingMark
  | _ => false

theorem isBlock_codeToken (body : Text) : (codeToken body).isBlock = true := by
  unfold codeToken
  split <;> rfl

theorem isBlock_of_isComplete {body : Text} (h : (scanBlock body).isComplete = true) :
    (scanBlock body).token.isBlock = true := by
  unfold scanBlock at h ⊢
  dsimp only at h ⊢
  split at h
  · split at h
    · rfl
    · cases h
  · split at h
    · split at h
      · cases h
      · next hholds => rw [if_neg hholds]; rfl
    · cases h
  · split at h
    · exact isBlock_codeToken _
    · cases h

theorem scanClosing_append {t : Text} (h : (scanClosing t).isComplete = true) (more : Text) :
    scanClosing (t ++ more) = scanClosing t := by
  unfold scanClosing at h
  split at h
  · next name rest hclosing =>
    have hends : Text.trimStart (t.dropWhile Tag.isNameChar) ≠ [] := by
      intro hnil
      rw [Tag.closing?_eq, hnil] at hclosing
      simp [Text.after?] at hclosing
    have hlonger := Tag.closing?_append hends more
    rw [hclosing, Option.map_some] at hlonger
    simp only [scanClosing, hlonger, hclosing, Text.upTo_append_append]
  · next hclosing =>
    dsimp only at h
    split at h
    · next name back hname hback =>
      obtain ⟨hinside, hdrop⟩ := Tag.inside_append (by rw [hback]; simp) more
      have hmem : '>' ∈ t := List.mem_of_mem_drop (hback ▸ List.mem_cons_self ..)
      have hlonger := Tag.closing?_append (Tag.trimStart_ne_nil_of_mem hmem) more
      rw [hclosing, Option.map_none] at hlonger
      rw [hback, List.cons_append] at hdrop
      simp only [scanClosing, hclosing, hlonger, hinside, hname, hback, hdrop]
    · cases h

theorem scanOpening_append {t : Text} (h : (scanOpening t).isComplete = true) (more : Text) :
    scan ('<' :: t ++ more) = scanOpening t := by
  have hsplit := List.takeWhile_append_dropWhile (p := Tag.isNameChar) (l := t)
  rw [scanOpening_eq] at h ⊢
  split at h
  · next c name e hname hending =>
    obtain ⟨taken, htaken, hend⟩ := Tag.ending?_append hending
    have hread : t.upTo e.rest = t.takeWhile Tag.isNameChar ++ taken := by
      rw [htaken, ← List.append_assoc] at hsplit
      conv => lhs; rw [← hsplit, Text.upTo_append]
    have hplain : Text.holds ('<' :: t.upTo e.rest) AttributeValue.bindingMark = false := by
      simpa [isComplete] using h
    have htaken_plain : taken.holds AttributeValue.bindingMark = false :=
      Text.holds_part ('<' :: t.takeWhile Tag.isNameChar) [] (by decide) (by simpa [hread] using hplain)
    have hends : t.dropWhile Tag.isNameChar ≠ [] := by
      intro hnil
      rw [hnil] at hending
      exact Tag.ne_nil_of_ending? hending rfl
    have hscan := scan_name (by rw [hname]; simp) List.all_takeWhile (t.dropWhile Tag.isNameChar ++ more)
    rw [← List.append_assoc, hsplit] at hscan
    refine hscan.trans ?_
    rw [scanOpening_eq, Text.takeWhile_append_of_ends hends, Text.dropWhile_append_of_ends hends, hname,
      hend htaken_plain more]
    simp only [Tag.Ending.append, Text.upTo_append_append]
  · unfold incomplete at h
    split at h <;> cases h

/-- A complete construct is read the same whatever follows it. -/
theorem scan_append {t : Text} (h : (scan t).isComplete = true) (more : Text) :
    scan (t ++ more) = scan t := by
  have hne : t ≠ [] := by
    rintro rfl
    cases h
  rcases scan_cases hne with ⟨body, rfl, hscan⟩ | ⟨rest, rfl, hscan⟩ | ⟨rest, rfl, hscan⟩ | ⟨c, rest, -, -, hscan⟩
  · rw [hscan] at h ⊢
    exact scanBlock_append (isBlock_of_isComplete h) more
  · rw [hscan] at h ⊢
    exact scanClosing_append h more
  · rw [hscan] at h ⊢
    exact scanOpening_append h more
  · rw [hscan] at h
    cases h

end Lexeme

/-- A complete construct is read the same wherever it stands: what precedes it moves its span and the offset
of its inner text, what follows it changes nothing. -/
theorem at?_within {source : Text} {offset : Nat} {lexeme : Lexeme}
    (h : Lexeme.at? source offset = some lexeme) (hcomplete : lexeme.isComplete = true)
    (front more : Text) :
    let place : Fragment := ⟨offset, lexeme.text⟩
    let moved : Fragment := ⟨front.byteLength + offset, lexeme.text⟩
    Lexeme.at? (front ++ source ++ more) moved.offset = some lexeme ∧
      moved.span = ⟨front.byteLength + place.span.start, front.byteLength + place.span.stop⟩ ∧
      lexeme.token.innerOffset moved.offset = front.byteLength + lexeme.token.innerOffset offset := by
  intro place moved
  obtain ⟨rest, hrest, rfl⟩ := Option.map_eq_some_iff.1 h
  obtain ⟨before, rfl, rfl⟩ := Text.dropBytes?_eq_some hrest
  refine ⟨?_, ?_, ?_⟩
  · have hsplit : front ++ (before ++ rest) ++ more = front ++ before ++ (rest ++ more) := by simp
    have hoffset : moved.offset = (front ++ before).byteLength := by simp [moved]
    rw [Lexeme.at?, hsplit, hoffset, Text.dropBytes?_append, Option.map_some,
      Lexeme.scan_append hcomplete]
  · simp [moved, place, Fragment.span, Nat.add_assoc]
  · cases (Lexeme.scan rest).token <;> simp [moved, Token.innerOffset, Nat.add_assoc]

theorem at?_within_image :
    let source := "é<img alt=\x22a > b\x22 hidden />".toList
    let front := "<% “".toList
    let more := " title='%>".toList
    let lexeme : Lexeme :=
      ⟨.openTag "img".toList " alt=\x22a > b\x22 hidden".toList true, "<img alt=\x22a > b\x22 hidden />".toList⟩
    Lexeme.at? source 2 = some lexeme ∧ lexeme.isComplete = true ∧
      Lexeme.at? (front ++ source ++ more) 8 = some lexeme ∧
      (Fragment.mk 8 lexeme.text).span = ⟨8, 34⟩ ∧ lexeme.token.innerOffset 8 = 12 := by
  intro source front more lexeme
  have h : Lexeme.at? source 2 = some lexeme := by decide +kernel
  have hcomplete : lexeme.isComplete = true := by decide +kernel
  exact ⟨h, hcomplete, at?_within h hcomplete front more⟩

/-- A binding may take up more: its value goes on to a quote behind a later `%>`. -/
example :
    let tag := "<a b=\x22<%#\x22>".toList
    let more := " %>\x22>".toList
    (Lexeme.scan tag).text = tag ∧ (Lexeme.scan (tag ++ more)).text = tag ++ more := by
  decide +kernel

end ServerPages
