import ServerPages.Proofs.Progress

/-! Problems point at what they are about. The text at the span of a problem starts with the tag or the
attribute that the problem names, or is written with the marks of what is not complete; a fault inside a
tag or a directive lies within that lexeme. -/

namespace ServerPages

def Span.Inside (s outer : Span) : Prop := outer.start ≤ s.start ∧ s.stop ≤ outer.stop

theorem Span.Inside.trans {a b c : Span} (hab : a.Inside b) (hbc : b.Inside c) : a.Inside c :=
  ⟨Nat.le_trans hbc.1 hab.1, Nat.le_trans hab.2 hbc.2⟩

namespace Token

def isOpenTag : Token → Bool
  | .openTag _ _ _ => true
  | _ => false

def isDirective : Token → Bool
  | .directive _ => true
  | _ => false

/-- How a faulty lexeme is written that starts `t`. -/
def Marks (t text : Text) : Token → Prop
  | .unterminatedComment => ['<', '%', '-', '-'] <+: text ∧ text = t
  | .unterminatedDirective => ['<', '%', '@'] <+: text
  | .unterminatedCode => ['<', '%'] <+: text ∧ text = t
  | .runatOnClosingTag name => ∃ inside, text = ['<', '/'] ++ (name ++ (inside ++ ['>']))
  | _ => True

end Token

/-- The span lies within a lexeme of this kind that a step reads. -/
def Span.InLexeme (source : Text) (kind : Token → Bool) (s : Span) : Prop :=
  ∃ turn ∈ turns source, turn.builder.rawRun turn.rest = [] ∧ kind turn.token = true ∧
    s.Inside turn.lexeme.span

/-- The text `t` at the span of a problem is what the problem is about. -/
def Problem.PointsAt (source t : Text) (p : Problem) : Prop :=
  match p.defect with
  | .unclosedTag name => '<' :: name <+: t
  | .malformedServerTag name => t = '<' :: name
  | .unexpectedClosingTag name | .runatOnClosingTag name =>
    ∃ inside, t = ['<', '/'] ++ (name ++ (inside ++ ['>']))
  | .duplicateAttribute name =>
    name ≠ [] ∧ name <+: t ∧ p.span.InLexeme source fun token => token.isOpenTag || token.isDirective
  | .codeInServerTag name => name ≠ [] ∧ name <+: t ∧ p.span.InLexeme source Token.isOpenTag
  | .malformedDirective text =>
    t = text ∧ text ≠ [] ∧ (∀ c ∈ text.head?, Text.isSpace c = false) ∧
      (∀ c ∈ text.getLast?, Text.isSpace c = false) ∧ p.span.InLexeme source Token.isDirective
  | .nestedDirective _ _ => ∃ body, t = ['<', '%', '@'] ++ (body ++ ['%', '>'])
  | .unterminatedDirective => ['<', '%', '@'] <+: t
  | .unterminatedComment => ['<', '%', '-', '-'] <+: t ∧ p.span.stop = source.byteLength
  | .unterminatedCode => ['<', '%'] <+: t ∧ p.span.stop = source.byteLength
  | .strayEnd => t = ['%', '>']

namespace Text

theorem ends_trim (t : Text) :
    (∀ c ∈ t.trim.head?, isSpace c = false) ∧ ∀ c ∈ t.trim.getLast?, isSpace c = false := by
  have hstart := head?_dropWhile isSpace t
  constructor
  · rw [show t.dropWhile isSpace = t.trimStart from rfl, trimStart_eq] at hstart
    exact boundary_of_append _ hstart
  · rw [trim, trimEnd, List.getLast?_reverse]
    exact head?_dropWhile isSpace _

end Text

namespace Fragment

theorem inside_part {f : Fragment} {front part back : Text} (h : f.text = front ++ (part ++ back)) :
    (span ⟨f.offset + front.byteLength, part⟩).Inside f.span := by
  simp only [Span.Inside, span, h, Text.byteLength_append]
  omega

theorem inside_skipTo {f : Fragment} {front rest : Text} (h : f.text = front ++ rest) :
    (f.skipTo rest).span.Inside f.span := by
  have hpart := inside_part (show f.text = front ++ (rest ++ []) by rw [h, List.append_nil])
  rwa [skipTo, h, Text.upTo_append]

theorem inside_trimmed (f : Fragment) : (DirectiveBody.trimmed f).span.Inside f.span := by
  have hskip := inside_skipTo f.text.takeWhile_append_trimStart.symm
  have htrim : (f.skipTo f.text.trimStart).text = [] ++ (f.text.trim ++ _) := f.text.trimStart_eq
  exact (inside_part htrim).trans hskip

end Fragment

namespace Attribute

theorem IsRead.starts {a : Attribute} (h : a.IsRead) : a.name ≠ [] ∧ a.name <+: a.place.text := by
  obtain ⟨start, rest, hread⟩ := h
  have hsplit := List.takeWhile_append_dropWhile (p := isNameChar) (l := start.text)
  simp only [read?] at hread
  split at hread
  · cases hread
  · next hname =>
    have hname : start.text.takeWhile isNameChar ≠ [] := by simpa using hname
    split at hread
    · next raw rest' hvalue =>
      cases hread
      obtain ⟨gap, hgap⟩ := exists_of_value? hvalue
      have htext : start.text = (start.text.takeWhile isNameChar ++ (gap ++ raw)) ++ rest := by
        conv => lhs; rw [← hsplit, hgap]
        simp
      have hplace : start.text.upTo rest = start.text.takeWhile isNameChar ++ (gap ++ raw) := by
        conv => lhs; rw [htext, Text.upTo_append]
      exact ⟨hname, gap ++ raw, hplace.symm⟩
    · cases hread
      exact ⟨hname, List.prefix_refl _⟩

end Attribute

theorem Spaced.inside_left {start left : Fragment} {fs : List Fragment} (h : Spaced start fs left) :
    left.span.Inside start.span := by
  obtain ⟨read, hread, hleft⟩ := h.eq_append
  simp only [Span.Inside, Fragment.span, hread, hleft, Text.byteLength_append]
  omega

namespace DirectiveBody

variable {start : Fragment}

theorem inside_rest (start : Fragment) :
    (start.skipTo (((name? start.text).map Prod.snd).getD start.text)).span.Inside start.span := by
  obtain ⟨front, hfront⟩ := suffix_rest start.text
  exact Fragment.inside_skipTo hfront.symm

/-- What a directive is made of lies within its body. -/
theorem inside_read (start : Fragment) :
    (∀ a ∈ (read start).attributes, a.IsRead ∧ a.place.span.Inside start.span) ∧
      ∀ leftover ∈ (read start).leftover, leftover.span.Inside start.span ∧ leftover.text ≠ [] ∧
        ∃ text : Text, leftover.text = text.trim := by
  have hspaced := Attribute.spaced_readAll false
    (start.skipTo (((name? start.text).map Prod.snd).getD start.text))
  refine ⟨fun a ha => ⟨Attribute.isRead_of_mem_readAll ha, ?_⟩, fun leftover hmem => ?_⟩
  · exact Span.Inside.trans (hspaced.bounds _ (List.mem_map_of_mem ha)) (inside_rest start)
  · unfold read at hmem
    dsimp only at hmem
    split at hmem
    · cases hmem
    · next hempty =>
      cases hmem
      refine ⟨?_, by simpa using hempty, _, rfl⟩
      exact ((Fragment.inside_trimmed _).trans hspaced.inside_left).trans (inside_rest start)

end DirectiveBody

namespace Lexeme

theorem marks_scanBlock (t : Text) :
    (scanBlock t).token.Marks ('<' :: '%' :: t) (scanBlock t).text := by
  have hcode : ∀ body text : Text, (codeToken body).Marks ('<' :: '%' :: t) text := by
    intro body text
    unfold codeToken
    split <;> trivial
  unfold scanBlock
  dsimp only
  split
  · split
    · trivial
    · exact ⟨by simp, rfl⟩
  · split
    · split
      · exact List.prefix_append _ _
      · trivial
    · exact List.prefix_append _ _
  · split
    · exact hcode _ _
    · exact ⟨by simp, rfl⟩

theorem marks_scanClosing (t : Text) :
    (scanClosing t).token.Marks ('<' :: '/' :: t) (scanClosing t).text := by
  unfold scanClosing
  dsimp only
  split
  · trivial
  · split
    · next name _ hname _ =>
      obtain ⟨rest, hrest⟩ := Tag.isPrefix_runatName? hname
      exact ⟨rest, by simp [← hrest]⟩
    · trivial

theorem marks_scanOpening (t : Text) : (scanOpening t).token.Marks ('<' :: t) (scanOpening t).text := by
  unfold scanOpening
  dsimp only
  split
  · trivial
  · split <;> trivial

/-- Whatever is scanned has the marks of its token. -/
theorem marks_scan (t : Text) : (scan t).token.Marks t (scan t).text := by
  rcases eq_or_ne t [] with rfl | ht
  · trivial
  rcases scan_cases ht with ⟨body, rfl, hscan⟩ | ⟨rest, rfl, hscan⟩ | ⟨rest, rfl, hscan⟩ | ⟨c, rest, -, rfl, hscan⟩
  · rw [hscan]
    exact marks_scanBlock body
  · rw [hscan]
    exact marks_scanClosing rest
  · rw [hscan]
    exact marks_scanOpening rest
  · rw [hscan]
    trivial

end Lexeme

theorem Problem.PointsAt.ne_nil {source t : Text} {p : Problem} (h : p.PointsAt source t) : t ≠ [] := by
  obtain ⟨defect, span⟩ := p
  rintro rfl
  cases defect with
  | duplicateAttribute | codeInServerTag => exact h.1 (List.prefix_nil.1 h.2.1)
  | malformedDirective => exact h.2.1 h.1.symm
  | _ => simp [PointsAt] at h

namespace Turn

variable {source : Text} {turn : Turn} {p : Problem}

theorem text_lexeme (h : turn ∈ turns source) : turn.lexeme.span.text source = turn.lexeme.text :=
  (lexeme_standsIn h).text_span

/-- What starts the rest of a page and goes on to its end, ends with the page. -/
theorem stop_of_rest (h : turn ∈ turns source) (hrest : turn.lexeme.text = turn.rest) :
    turn.lexeme.span.stop = source.byteLength := by
  obtain ⟨-, front, rfl, hoffset⟩ := Builder.rest_of_mem_turns h
  have hoffset : turn.lexeme.offset = front.byteLength := hoffset.trans (Nat.zero_add _)
  rw [Fragment.span, hrest, hoffset, Text.byteLength_append]

theorem closing_written (h : turn ∈ turns source) {name : Text}
    (hname : turn.token.closingName? = some name) :
    ∃ inside, turn.lexeme.text = ['<', '/'] ++ (name ++ (inside ++ ['>'])) := by
  cases htoken : turn.token with
  | closeTag written =>
    rw [htoken] at hname
    cases hname
    have hwrites := writes_lexeme h
    rw [htoken] at hwrites
    obtain ⟨-, blank, -, htext⟩ := hwrites
    exact ⟨blank, htext⟩
  | runatOnClosingTag written =>
    rw [htoken] at hname
    cases hname
    have hmarks := Lexeme.marks_scan turn.rest
    rw [show (Lexeme.scan turn.rest).token = _ from htoken] at hmarks
    exact hmarks
  | _ => simp [htoken, Token.closingName?] at hname

theorem pointsAt_of_mem_closingRemarks (h : turn ∈ turns source) {name : Text}
    (hname : turn.token.closingName? = some name)
    (hp : p ∈ turn.builder.closingRemarks name turn.lexeme) :
    p.PointsAt source (p.span.text source) := by
  unfold Builder.closingRemarks at hp
  split at hp
  · rw [List.mem_singleton.1 hp, text_lexeme h]
    exact closing_written h hname
  · cases hp

/-- An attribute of a lexeme is pointed at by its name, within the lexeme. -/
theorem pointsAt_attribute (h : turn ∈ turns source) (hraw : turn.builder.rawRun turn.rest = [])
    {kind : Token → Bool} (hkind : kind turn.token = true) {a : Attribute} (hread : a.IsRead)
    (hstands : a.place.StandsIn source) (hinside : a.place.span.Inside turn.lexeme.span) :
    a.name ≠ [] ∧ a.name <+: a.place.span.text source ∧ a.place.span.InLexeme source kind := by
  rw [hstands.text_span]
  exact ⟨hread.starts.1, hread.starts.2, turn, h, hraw, hkind, hinside⟩

theorem inside_body (h : turn ∈ turns source) {body : Text} (htoken : turn.token = .directive body) :
    (Fragment.span ⟨turn.offset + 3, body⟩).Inside turn.lexeme.span := by
  have hwrites := writes_lexeme h
  rw [htoken] at hwrites
  exact Fragment.inside_part (show turn.lexeme.text = ['<', '%', '@'] ++ (body ++ ['%', '>']) from hwrites)

theorem inside_attributes (h : turn ∈ turns source) {name attributes : Text} {selfClosing : Bool}
    (htoken : turn.token = .openTag name attributes selfClosing) :
    (Fragment.span ⟨turn.offset + 1 + name.byteLength, attributes⟩).Inside turn.lexeme.span := by
  have hwrites := writes_lexeme h
  rw [htoken] at hwrites
  obtain ⟨-, -, mark, htext⟩ := hwrites
  have hpart := Fragment.inside_part (show turn.lexeme.text = ('<' :: name) ++ (attributes ++ mark) from htext)
  rwa [Text.byteLength_cons, ← Nat.add_assoc] at hpart

theorem pointsAt_of_mem_directiveRemarks (h : turn ∈ turns source)
    (hraw : turn.builder.rawRun turn.rest = []) {body : Text} (htoken : turn.token = .directive body)
    (hp : p ∈ turn.builder.directiveRemarks ⟨turn.offset + 3, body⟩ turn.lexeme) :
    p.PointsAt source (p.span.text source) := by
  have hstands := DirectiveBody.standsIn_read (standsIn_body h htoken)
  have hinside := DirectiveBody.inside_read ⟨turn.offset + 3, body⟩
  have hdirective : turn.token.isDirective = true := by rw [htoken]; rfl
  simp only [Builder.directiveRemarks, List.mem_append, List.mem_map, Option.mem_toList] at hp
  rcases hp with (⟨leftover, hmem, rfl⟩ | ⟨_, -, rfl⟩) | ⟨a, hmem, rfl⟩
  · obtain ⟨hwithin, hne, text, htrim⟩ := hinside.2 leftover hmem
    have hends := text.ends_trim
    rw [← htrim] at hends
    exact ⟨(hstands.2 leftover hmem).text_span, hne, hends.1, hends.2, turn, h, hraw, hdirective,
      hwithin.trans (inside_body h htoken)⟩
  · have hwrites := writes_lexeme h
    rw [htoken] at hwrites
    exact ⟨body, (text_lexeme h).trans hwrites⟩
  · have ha := Builder.mem_of_mem_repeated hmem
    obtain ⟨hread, hwithin⟩ := hinside.1 a ha
    exact pointsAt_attribute h hraw (by simp [hdirective]) hread (hstands.1 a ha)
      (hwithin.trans (inside_body h htoken))

theorem pointsAt_of_mem_tagRemarks (h : turn ∈ turns source)
    (hraw : turn.builder.rawRun turn.rest = []) {name attributes : Text} {selfClosing : Bool}
    (htoken : turn.token = .openTag name attributes selfClosing)
    (hp : p ∈ turn.builder.remarks (.openTag name attributes selfClosing) turn.lexeme) :
    p.PointsAt source (p.span.text source) := by
  have hpoints : ∀ kind : Token → Bool, kind turn.token = true →
      ∀ a ∈ Attribute.ofTag ⟨turn.offset + 1 + name.byteLength, attributes⟩,
        a.name ≠ [] ∧ a.name <+: a.place.span.text source ∧ a.place.span.InLexeme source kind := by
    intro kind hkind a ha
    have hbounds := (Attribute.spaced_readAll true _).bounds _ (List.mem_map_of_mem ha)
    exact pointsAt_attribute h hraw hkind (Attribute.isRead_of_mem_readAll ha)
      (Attribute.standsIn_of_mem_readAll (standsIn_attributes h htoken) ha)
      (Span.Inside.trans hbounds (inside_attributes h htoken))
  have hopening : turn.token.isOpenTag = true := by rw [htoken]; rfl
  unfold Builder.remarks at hp
  dsimp only at hp
  split at hp
  · cases hp
  · rcases List.mem_append.1 hp with hp | hp
    · obtain ⟨a, hmem, rfl⟩ := List.mem_map.1 hp
      exact hpoints _ (by simp [hopening]) a (Builder.mem_of_mem_repeated hmem)
    · obtain ⟨a, hmem, rfl⟩ := Tag.exists_of_mem_codeReports hp
      exact hpoints _ hopening a (Builder.mem_of_mem_separate hmem)

/-- Every remark of a step points at what it is about. -/
theorem pointsAt_of_mem_remarks (h : turn ∈ turns source) (hp : p ∈ turn.remarks) :
    p.PointsAt source (p.span.text source) := by
  by_cases hraw : turn.builder.rawRun turn.rest = []
  · have hwrites := writes_lexeme h
    have hmarks : turn.token.Marks turn.rest turn.lexeme.text := Lexeme.marks_scan turn.rest
    have htext := text_lexeme h
    rw [remarks_eq hraw] at hp
    cases htoken : turn.token with
    | comment => simp [htoken, Builder.remarks] at hp
    | code kind code => simp [htoken, Builder.remarks] at hp
    | binding expression encode => simp [htoken, Builder.remarks] at hp
    | directive body =>
      rw [htoken] at hp
      exact pointsAt_of_mem_directiveRemarks h hraw htoken hp
    | openTag name attributes selfClosing =>
      rw [htoken] at hp
      exact pointsAt_of_mem_tagRemarks h hraw htoken hp
    | closeTag name =>
      rw [htoken] at hp
      exact pointsAt_of_mem_closingRemarks h (by rw [htoken]; rfl) hp
    | text =>
      rw [htoken] at hp
      obtain ⟨n, hstray, rfl⟩ := List.mem_map.1 hp
      obtain ⟨⟨front, back⟩, hcut, rfl⟩ := Option.map_eq_some_iff.1 (Option.mem_toList.1 hstray)
      exact ((lexeme_standsIn h).part front ['%', '>'] back (Text.cut?_eq_some hcut)).text_span
    | unterminatedComment =>
      rw [htoken] at hp hmarks
      rw [List.mem_singleton.1 hp]
      exact ⟨htext.symm ▸ hmarks.1, stop_of_rest h hmarks.2⟩
    | unterminatedDirective =>
      rw [htoken] at hp hmarks
      rw [List.mem_singleton.1 hp]
      exact htext.symm ▸ hmarks
    | unterminatedCode =>
      rw [htoken] at hp hmarks
      rw [List.mem_singleton.1 hp]
      exact ⟨htext.symm ▸ hmarks.1, stop_of_rest h hmarks.2⟩
    | malformedServerTag name =>
      rw [htoken] at hp hwrites
      rw [List.mem_singleton.1 hp]
      exact htext.trans hwrites.2
    | runatOnClosingTag name =>
      rw [htoken] at hp hmarks
      rcases List.mem_cons.1 hp with rfl | hp
      · obtain ⟨inside, hinside⟩ := hmarks
        exact ⟨inside, htext.trans hinside⟩
      · exact pointsAt_of_mem_closingRemarks h (by rw [htoken]; rfl) hp
  · rw [remarks_of_raw hraw] at hp
    cases hp

end Turn

theorem pointsAt_of_mem_problems {source : Text} {p : Problem} (h : p ∈ (parse source).problems) :
    p.PointsAt source (p.span.text source) := by
  rcases exists_of_mem_problems h with ⟨turn, hturn, hp⟩ | ⟨tag, htag, rfl⟩
  · exact Turn.pointsAt_of_mem_remarks hturn hp
  · -- an unclosed tag is reported at its opening, which one step read
    obtain ⟨turn, hturn, -, -, name, attributes, selfClosing, htoken, rfl⟩ := exists_opens htag
    have hwrites := Turn.writes_lexeme hturn
    rw [htoken] at hwrites
    obtain ⟨-, -, mark, htext⟩ := hwrites
    exact ⟨attributes ++ mark, ((Turn.text_lexeme hturn).trans htext).symm⟩

/-- The text at the span of a problem is what the problem is about, and there is some. -/
theorem parse_problems_pointAt (source : Text) : ∀ p ∈ (parse source).problems,
    p.span.text source ≠ [] ∧ p.PointsAt source (p.span.text source) :=
  fun _ h => ⟨(pointsAt_of_mem_problems h).ne_nil, pointsAt_of_mem_problems h⟩

theorem parse_problems_pointAt_repeated :
    let source := "é<asp:Label Text='a' text='b' runat='server' />".toList
    let p : Problem := ⟨.duplicateAttribute "text".toList, ⟨22, 30⟩⟩
    p ∈ (parse source).problems ∧
      p.span.text source ≠ [] ∧ p.PointsAt source (p.span.text source) := by
  intro source p
  have hp : p ∈ (parse source).problems := by decide +kernel
  exact ⟨hp, parse_problems_pointAt source p hp⟩

end ServerPages
