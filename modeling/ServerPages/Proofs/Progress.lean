import ServerPages.Proofs.Origin
import ServerPages.Proofs.Written

/-! Reading goes forward, from one character boundary to a later one, until the page ends. Everything a
page is made of was read off a fragment that stands in it: every node, every attribute, every closing tag
and every problem. So no span is reversed, ends past the page or cuts a character. -/

namespace ServerPages

/-- No character of the text is cut at byte `n`. -/
def Text.IsBoundary (t : Text) (n : Nat) : Prop := ∃ front back, t = front ++ back ∧ n = front.byteLength

/-- A span that names a piece of the page, so that its text is never the fallback. -/
structure Span.Valid (source : Text) (s : Span) : Prop where
  start_le_stop : s.start ≤ s.stop
  stop_le : s.stop ≤ source.byteLength
  start_boundary : source.IsBoundary s.start
  stop_boundary : source.IsBoundary s.stop
  found : ∃ rest length, source.dropBytes? s.start = some rest ∧ s.length? = some length ∧
    rest.takeBytes? length = some (s.text source)

namespace Fragment

variable {source : Text}

theorem StandsIn.valid {f : Fragment} (h : f.StandsIn source) : f.span.Valid source := by
  have htext := h.text_span
  obtain ⟨front, back, rfl, ho⟩ := h
  refine ⟨Nat.le_add_right _ _, ?_, ⟨front, f.text ++ back, rfl, ho⟩, ⟨front ++ f.text, back, ?_, ?_⟩,
    f.text ++ back, f.text.byteLength, ?_, ?_, ?_⟩
  · simp only [span, ho, Text.byteLength_append]
    omega
  · rw [List.append_assoc]
  · simp only [span, ho, Text.byteLength_append]
  · rw [show f.span.start = front.byteLength from ho, Text.dropBytes?_append]
  · simp [span, Span.length?]
  · rw [htext, Text.takeBytes?_append]

theorem StandsIn.part {f : Fragment} (h : f.StandsIn source) (front part back : Text)
    (htext : f.text = front ++ (part ++ back)) :
    StandsIn ⟨f.offset + front.byteLength, part⟩ source := by
  obtain ⟨before, after, rfl, ho⟩ := h
  exact ⟨before ++ front, back ++ after, by simp [htext], by simp [ho]⟩

theorem StandsIn.skipTo {f : Fragment} {front rest : Text} (h : f.StandsIn source)
    (htext : f.text = front ++ rest) : (f.skipTo rest).StandsIn source := by
  have hpart := h.part front rest [] (by rw [List.append_nil, htext])
  rwa [Fragment.skipTo, htext, Text.upTo_append]

theorem StandsIn.trimmed {f : Fragment} (h : f.StandsIn source) :
    (DirectiveBody.trimmed f).StandsIn source := by
  have hskip : (f.skipTo f.text.trimStart).StandsIn source :=
    h.skipTo f.text.takeWhile_append_trimStart.symm
  exact hskip.part [] _ _ f.text.trimStart_eq

end Fragment

namespace Attribute

variable {source : Text} {start : Fragment}

theorem standsIn_of_mem_readAll (h : start.StandsIn source) {spaced : Bool} {a : Attribute}
    (ha : a ∈ (readAll spaced start).1) : a.place.StandsIn source :=
  ((spaced_readAll spaced start).standsIn h).1 _ (List.mem_map_of_mem ha)

end Attribute

namespace DirectiveBody

variable {source : Text} {start : Fragment}

theorem exists_of_name? {body word rest : Text} (h : name? body = some (word, rest)) :
    ∃ blank, blank.all Text.isSpace = true ∧ word ≠ [] ∧ body = blank ++ (word ++ rest) := by
  unfold name? at h
  dsimp only at h
  split at h
  · cases h
  · next hname =>
    cases h
    refine ⟨body.takeWhile Text.isSpace, List.all_takeWhile, ?_, ?_⟩
    · simp only [Bool.or_eq_true, not_or, List.isEmpty_iff] at hname
      exact hname.1.1
    · rw [List.takeWhile_append_dropWhile, Text.takeWhile_append_trimStart]

theorem suffix_rest (body : Text) : ((name? body).map Prod.snd).getD body <:+ body := by
  cases hname : name? body with
  | none => exact List.suffix_refl _
  | some named =>
    obtain ⟨word, rest⟩ := named
    obtain ⟨blank, -, -, rfl⟩ := exists_of_name? hname
    exact ⟨blank ++ word, List.append_assoc ..⟩

/-- What a directive is made of stands where its body does. -/
theorem standsIn_read (h : start.StandsIn source) :
    (∀ a ∈ (read start).attributes, a.place.StandsIn source) ∧
      ∀ leftover ∈ (read start).leftover, leftover.StandsIn source := by
  have hrest : (start.skipTo (((name? start.text).map Prod.snd).getD start.text)).StandsIn source := by
    obtain ⟨front, hfront⟩ := suffix_rest start.text
    exact h.skipTo hfront.symm
  have hleft := ((Attribute.spaced_readAll false _).standsIn hrest).2
  refine ⟨fun a ha => Attribute.standsIn_of_mem_readAll hrest ha, fun leftover hmem => ?_⟩
  unfold read at hmem
  dsimp only at hmem
  split at hmem
  · cases hmem
  · cases hmem
    exact hleft.trimmed

end DirectiveBody

namespace Turn

variable {source : Text} {turn : Turn}

theorem standsIn_of_prefix (h : turn ∈ turns source) {text : Text} (hread : text <+: turn.rest) :
    Fragment.StandsIn ⟨turn.offset, text⟩ source := by
  obtain ⟨_, front, rfl, hoffset⟩ := Builder.rest_of_mem_turns h
  obtain ⟨back, hback⟩ := hread
  exact ⟨front, back, by rw [← hback], by simpa using hoffset⟩

theorem lexeme_standsIn (h : turn ∈ turns source) : turn.lexeme.StandsIn source :=
  standsIn_of_prefix h (Lexeme.isPrefix_text_scan _)

theorem writes_lexeme (h : turn ∈ turns source) :
    turn.token.Writes turn.lexeme.text :=
  Lexeme.writes_scan (Builder.rest_of_mem_turns h).1

/-- The attributes of a tag and the body of a directive stand in the page. -/
theorem standsIn_attributes (h : turn ∈ turns source) {name attributes : Text} {selfClosing : Bool}
    (htoken : turn.token = .openTag name attributes selfClosing) :
    Fragment.StandsIn ⟨turn.offset + 1 + name.byteLength, attributes⟩ source := by
  have hwrites := writes_lexeme h
  rw [htoken] at hwrites
  obtain ⟨-, -, mark, htext⟩ := hwrites
  have hpart := (lexeme_standsIn h).part ('<' :: name) attributes mark htext
  rwa [Text.byteLength_cons, ← Nat.add_assoc] at hpart

theorem standsIn_body (h : turn ∈ turns source) {body : Text}
    (htoken : turn.token = .directive body) :
    Fragment.StandsIn ⟨turn.offset + 3, body⟩ source := by
  have hwrites := writes_lexeme h
  rw [htoken] at hwrites
  exact (lexeme_standsIn h).part ['<', '%', '@'] body ['%', '>'] hwrites

theorem valid_of_mem_directiveRemarks (h : turn ∈ turns source) {body : Text}
    (htoken : turn.token = .directive body) {p : Problem}
    (hp : p ∈ turn.builder.directiveRemarks ⟨turn.offset + 3, body⟩ turn.lexeme) :
    p.span.Valid source := by
  have hread := DirectiveBody.standsIn_read (standsIn_body h htoken)
  simp only [Builder.directiveRemarks, List.mem_append, List.mem_map, Option.mem_toList] at hp
  rcases hp with (⟨leftover, hmem, rfl⟩ | ⟨_, -, rfl⟩) | ⟨a, hmem, rfl⟩
  · exact (hread.2 leftover hmem).valid
  · exact (lexeme_standsIn h).valid
  · exact (hread.1 a (Builder.mem_of_mem_repeated hmem)).valid

theorem valid_of_mem_tagRemarks (h : turn ∈ turns source) {name attributes : Text} {selfClosing : Bool}
    (htoken : turn.token = .openTag name attributes selfClosing) {p : Problem}
    (hp : p ∈ turn.builder.remarks (.openTag name attributes selfClosing) turn.lexeme) :
    p.span.Valid source := by
  have hread : ∀ a ∈ Attribute.ofTag ⟨turn.offset + 1 + name.byteLength, attributes⟩,
      a.place.span.Valid source := fun a ha =>
    (Attribute.standsIn_of_mem_readAll (standsIn_attributes h htoken) ha).valid
  unfold Builder.remarks at hp
  dsimp only at hp
  split at hp
  · cases hp
  · rcases List.mem_append.1 hp with hp | hp
    · obtain ⟨a, hmem, rfl⟩ := List.mem_map.1 hp
      exact hread a (Builder.mem_of_mem_repeated hmem)
    · obtain ⟨a, hmem, rfl⟩ := Tag.exists_of_mem_codeReports hp
      exact hread a (Builder.mem_of_mem_separate hmem)

/-- Every remark of a step is about a piece of the page. -/
theorem valid_of_mem_remarks (h : turn ∈ turns source) {p : Problem} (hp : p ∈ turn.remarks) :
    p.span.Valid source := by
  have hlexeme : turn.lexeme.span.Valid source := (lexeme_standsIn h).valid
  have hclosing : ∀ name, p ∈ turn.builder.closingRemarks name turn.lexeme → p.span.Valid source := by
    intro name hmem
    unfold Builder.closingRemarks at hmem
    split at hmem
    · rw [List.mem_singleton.1 hmem]
      exact hlexeme
    · cases hmem
  by_cases hraw : turn.builder.rawRun turn.rest = []
  · rw [remarks_eq hraw] at hp
    cases htoken : turn.token with
    | comment => simp [htoken, Builder.remarks] at hp
    | code kind code => simp [htoken, Builder.remarks] at hp
    | binding expression encode => simp [htoken, Builder.remarks] at hp
    | directive body =>
      rw [htoken] at hp
      exact valid_of_mem_directiveRemarks h htoken hp
    | openTag name attributes selfClosing =>
      rw [htoken] at hp
      exact valid_of_mem_tagRemarks h htoken hp
    | closeTag name =>
      rw [htoken] at hp
      exact hclosing name hp
    | text =>
      rw [htoken] at hp
      obtain ⟨n, hstray, rfl⟩ := List.mem_map.1 hp
      obtain ⟨⟨front, back⟩, hcut, rfl⟩ := Option.map_eq_some_iff.1 (Option.mem_toList.1 hstray)
      exact ((lexeme_standsIn h).part front ['%', '>'] back (Text.cut?_eq_some hcut)).valid
    | runatOnClosingTag name =>
      rw [htoken] at hp
      rcases List.mem_cons.1 hp with rfl | hp
      · exact hlexeme
      · exact hclosing name hp
    | _ =>
      rw [htoken] at hp
      rw [List.mem_singleton.1 hp]
      exact hlexeme
  · rw [remarks_of_raw hraw] at hp
    cases hp

theorem directive_of_effect {d : Directive} (h : turn.effect = .add (.directive d)) :
    ∃ body, turn.token = .directive body ∧ d = .ofLexeme ⟨turn.offset + 3, body⟩ turn.lexeme := by
  by_cases hraw : turn.builder.rawRun turn.rest = []
  · rw [effect_eq hraw] at h
    cases htoken : turn.token with
    | directive body =>
      rw [htoken] at h
      cases h
      exact ⟨body, rfl, rfl⟩
    | openTag name attributes selfClosing =>
      simp only [htoken, Builder.effect, Tag.effect] at h
      split at h
      · cases h
      · split at h <;> cases h
    | closeTag name =>
      rcases turn.builder.closing_cases name turn.lexeme with hc | hc | hc <;>
        simp [htoken, Builder.effect, hc] at h
    | runatOnClosingTag name =>
      rcases turn.builder.closing_cases name turn.lexeme with hc | hc | hc <;>
        simp [htoken, Builder.effect, hc] at h
    | _ => simp [htoken, Builder.effect] at h
  · rw [effect_of_raw hraw] at h
    cases h

theorem Opens.attributes {tag : Tag} (h : turn ∈ turns source) (hopens : turn.Opens tag) :
    tag.opening.StandsIn source ∧ ∀ a ∈ tag.attributes, a.place.StandsIn source ∧
      tag.opening.span.start ≤ a.place.span.start ∧ a.place.span.stop ≤ tag.opening.span.stop := by
  obtain ⟨-, -, name, attributes, selfClosing, htoken, rfl⟩ := hopens
  refine ⟨lexeme_standsIn h, fun a ha => ?_⟩
  have hwrites := writes_lexeme h
  rw [htoken] at hwrites
  obtain ⟨-, -, mark, htext⟩ := hwrites
  have hread : a ∈ (Attribute.readAll true
      ⟨turn.offset + 1 + name.byteLength, attributes⟩).1 := Builder.mem_of_mem_separate ha
  have hbounds := (Attribute.spaced_readAll true _).bounds _ (List.mem_map_of_mem hread)
  refine ⟨Attribute.standsIn_of_mem_readAll (standsIn_attributes h htoken) hread, ?_⟩
  change turn.lexeme.span.start ≤ _ ∧ _ ≤ turn.lexeme.span.stop
  simp only [Fragment.span, htext, Text.byteLength_cons, Text.byteLength_append,
    show turn.lexeme.offset = turn.offset from rfl, show Char.utf8Size '<' = 1 from rfl] at hbounds ⊢
  omega

end Turn

section

variable {source : Text}

theorem attributes_of_enter {tag : Tag} (h : .enter tag ∈ Node.walkAll none (parse source).nodes) :
    tag.opening.StandsIn source ∧ ∀ a ∈ tag.attributes, a.place.StandsIn source ∧
      tag.opening.span.start ≤ a.place.span.start ∧ a.place.span.stop ≤ tag.opening.span.stop := by
  obtain ⟨turn, hturn, hopens⟩ := exists_opens h
  exact hopens.attributes hturn

theorem attributes_of_directive {parent : Option Tag} {d : Directive}
    (h : .pass parent (.directive d) ∈ Node.walkAll none (parse source).nodes) :
    ∀ a ∈ d.attributes, a.place.StandsIn source := by
  obtain ⟨turn, hturn, -, heffect⟩ := exists_add h
  obtain ⟨body, htoken, rfl⟩ := Turn.directive_of_effect heffect
  intro a ha
  exact (DirectiveBody.standsIn_read (Turn.standsIn_body hturn htoken)).1 a
    (Builder.mem_of_mem_separate ha)

end

namespace Node

def spans : Node → List Span
  | .directive d => d.place.span :: d.attributes.map (·.place.span)
  | .element tag closing _ =>
    tag.opening.span :: (tag.attributes.map (·.place.span) ++ closing.pieces.map Fragment.span)
  | .literal place | .code _ _ place | .binding _ _ place => [place.span]

end Node

/-- Every span of the tree and of the problems. -/
def Parsed.spans (parsed : Parsed) : List Span :=
  (Node.withinAll parsed.nodes).flatMap Node.spans ++ parsed.problems.map (·.span)

section

variable {source : Text}

theorem valid_of_mem_pieces {event : Event} (h : event ∈ Node.walkAll none (parse source).nodes)
    {piece : Fragment} (hpiece : piece ∈ event.pieces) : piece.span.Valid source := by
  refine (standsIn_of_mem_pieces ?_).valid
  rw [Node.piecesAll_eq_walk none]
  exact List.mem_flatMap.2 ⟨event, h, hpiece⟩

theorem Node.valid_of_mem_spans {node : Node} (h : node ∈ Node.withinAll (parse source).nodes) :
    ∀ s ∈ node.spans, s.Valid source := by
  obtain ⟨event, hevent, hnode⟩ := List.mem_filterMap.1 (Node.withinAll_eq_walk none _ ▸ h)
  intro s hs
  cases event with
  | enter tag => cases hnode
  | pass parent passed =>
    cases passed with
    | element tag closing children => cases hnode
    | directive d =>
      cases hnode
      rcases List.mem_cons.1 hs with rfl | hs
      · exact valid_of_mem_pieces hevent (List.mem_singleton_self _)
      · obtain ⟨a, ha, rfl⟩ := List.mem_map.1 hs
        exact (attributes_of_directive hevent a ha).valid
    | _ =>
      cases hnode
      rw [List.mem_singleton.1 hs]
      exact valid_of_mem_pieces hevent (List.mem_singleton_self _)
  | leave tag closing children =>
    cases hnode
    obtain ⟨hopening, hattributes⟩ := attributes_of_enter (Node.enter_mem_walkAll none _ h)
    rcases List.mem_cons.1 hs with rfl | hs
    · exact hopening.valid
    · rcases List.mem_append.1 hs with hs | hs
      · obtain ⟨a, ha, rfl⟩ := List.mem_map.1 hs
        exact (hattributes a ha).1.valid
      · obtain ⟨piece, hpiece, rfl⟩ := List.mem_map.1 hs
        exact valid_of_mem_pieces hevent hpiece

theorem valid_of_mem_problems {p : Problem} (h : p ∈ (parse source).problems) :
    p.span.Valid source := by
  rcases exists_of_mem_problems h with ⟨turn, hturn, hp⟩ | ⟨tag, htag, rfl⟩
  · exact Turn.valid_of_mem_remarks hturn hp
  · exact (attributes_of_enter htag).1.valid

theorem Parsed.valid_of_mem_spans {s : Span} (h : s ∈ (parse source).spans) : s.Valid source := by
  rcases List.mem_append.1 h with h | h
  · obtain ⟨node, hnode, hs⟩ := List.mem_flatMap.1 h
    exact Node.valid_of_mem_spans hnode s hs
  · obtain ⟨p, hp, rfl⟩ := List.mem_map.1 h
    exact valid_of_mem_problems hp

end

namespace Lexeme

/-- A lexeme is read at every boundary within the page, and goes on to a later one. -/
theorem at?_boundary {source : Text} {offset : Nat} (h : source.IsBoundary offset)
    (hlt : offset < source.byteLength) : ∃ lexeme, at? source offset = some lexeme ∧
      0 < lexeme.text.byteLength ∧ Fragment.StandsIn ⟨offset, lexeme.text⟩ source := by
  obtain ⟨front, rest, rfl, rfl⟩ := h
  have hne : rest ≠ [] := by
    rintro rfl
    simp at hlt
  obtain ⟨back, hback⟩ := isPrefix_text_scan rest
  refine ⟨scan rest, ?_, Text.byteLength_pos (text_scan_ne_nil hne), front, back, ?_, rfl⟩
  · rw [at?, Text.dropBytes?_append, Option.map_some]
  · rw [hback]

/-- The lexemes of a rest of the page follow each other to its end. -/
theorem all_tiles (offset : Nat) (t : Text) :
    Tiles offset (offset + t.byteLength) ((all offset t).map Prod.snd) := by
  fun_induction all offset t with
  | case1 offset => simp [Tiles]
  | case2 offset t ht lexeme ih =>
    have hlen : lexeme.text.byteLength + Text.byteLength (t.drop lexeme.text.length) = t.byteLength := by
      rw [← Text.byteLength_append, List.prefix_iff_eq_append.1 (isPrefix_text_scan t)]
    refine ⟨rfl, ?_⟩
    rwa [Nat.add_assoc, hlen] at ih

theorem rest_of_mem_all {offset : Nat} {t : Text} {token : Token} {place : Fragment}
    (h : (token, place) ∈ all offset t) : ∃ front rest, t = front ++ rest ∧
      place.offset = offset + front.byteLength ∧ scan rest = ⟨token, place.text⟩ := by
  fun_induction all offset t with
  | case1 offset => cases h
  | case2 offset t ht lexeme ih =>
    rcases List.mem_cons.1 h with he | h
    · cases he
      exact ⟨[], t, rfl, rfl, rfl⟩
    · obtain ⟨front, rest, hrest, hoffset, hscan⟩ := ih h
      refine ⟨lexeme.text ++ front, rest, ?_, ?_, hscan⟩
      · rw [List.append_assoc, ← hrest, List.prefix_iff_eq_append.1 (isPrefix_text_scan t)]
      · rw [hoffset, Text.byteLength_append, Nat.add_assoc]

theorem at?_of_mem_all {source : Text} {token : Token} {place : Fragment}
    (h : (token, place) ∈ all 0 source) : at? source place.offset = some ⟨token, place.text⟩ := by
  obtain ⟨front, rest, rfl, hoffset, hscan⟩ := rest_of_mem_all h
  rw [at?, hoffset, Nat.zero_add, Text.dropBytes?_append, Option.map_some, hscan]

end Lexeme

namespace Builder

theorem length_turns_le (b : Builder) (offset : Nat) (t : Text) :
    (b.turns offset t).length ≤ t.byteLength := by
  fun_induction turns b offset t with
  | case1 b offset => exact Nat.le_refl _
  | case2 b offset t ht next ih =>
    have hlen : next.2.byteLength + Text.byteLength (t.drop next.2.length) = t.byteLength := by
      rw [← Text.byteLength_append, b.read_append_drop offset t]
    have hpos := Text.byteLength_pos (b.read_step_ne_nil offset ht)
    simp only [next, List.length_cons] at ih hlen ⊢
    omega

end Builder

/-- Reading goes forward and keeps to character boundaries. At every boundary within a page a lexeme is
read that ends at a later one, and so the lexemes follow each other to the end of the page. Every step of
the builder stands at a boundary and goes on to a later one, also where it reads a plain tag only up to
the code in it; as the steps follow each other to the end of the page, there are no more of them than
bytes. And every span of the result names a piece of the page. -/
theorem parse_progress (source : Text) :
    (∀ offset, source.IsBoundary offset → offset < source.byteLength →
      ∃ lexeme, Lexeme.at? source offset = some lexeme ∧
        let s := Fragment.span ⟨offset, lexeme.text⟩
        s.start < s.stop ∧ s.Valid source ∧ s.text source = lexeme.text) ∧
    (Tiles 0 source.byteLength ((Lexeme.all 0 source).map Prod.snd) ∧
      ∀ token place, (token, place) ∈ Lexeme.all 0 source →
        Lexeme.at? source place.offset = some ⟨token, place.text⟩) ∧
    (Tiles 0 source.byteLength ((turns source).map Turn.place) ∧
      (turns source).length ≤ source.byteLength ∧
      ∀ turn ∈ turns source,
        let next := turn.builder.step turn.offset turn.rest
        let offset := turn.offset + next.2.byteLength
        let rest := turn.rest.drop next.2.length
        source.dropBytes? turn.offset = some turn.rest ∧ source.dropBytes? offset = some rest ∧
          turn.offset < offset ∧ offset ≤ source.byteLength ∧ source.IsBoundary offset ∧
          turn.builder.run turn.offset turn.rest = next.1.run offset rest ∧
          next.1.run offset rest = Builder.empty.run 0 source) ∧
    ∀ s ∈ (parse source).spans, s.Valid source := by
  refine ⟨?_, ⟨?_, ?_⟩, ⟨tiles_turns source, Builder.empty.length_turns_le 0 source, ?_⟩, ?_⟩
  · intro offset hboundary hlt
    obtain ⟨lexeme, hat, hpos, hstands⟩ := Lexeme.at?_boundary hboundary hlt
    exact ⟨lexeme, hat, Nat.lt_add_of_pos_right hpos, hstands.valid, hstands.text_span⟩
  · simpa using Lexeme.all_tiles 0 source
  · intro token place h
    exact Lexeme.at?_of_mem_all h
  · intro turn hturn next offset rest
    obtain ⟨hne, front, hfront, hoffset⟩ := Builder.rest_of_mem_turns hturn
    have hoffset : turn.offset = front.byteLength := by simpa using hoffset
    have hsource : source = (front ++ next.2) ++ rest := by
      rw [List.append_assoc, turn.builder.read_append_drop turn.offset turn.rest, hfront]
    have hstop : offset = (front ++ next.2).byteLength := by
      rw [Text.byteLength_append, ← hoffset]
    have hnext : turn.builder.run turn.offset turn.rest = next.1.run offset rest := by
      conv => lhs; rw [Builder.run, dif_neg hne]
    refine ⟨?_, ?_, ?_, ?_, ⟨front ++ next.2, rest, hsource, hstop⟩, hnext, ?_⟩
    · rw [hfront, hoffset, Text.dropBytes?_append]
    · rw [hsource, hstop, Text.dropBytes?_append]
    · exact Nat.lt_add_of_pos_right (Text.byteLength_pos (Builder.read_step_ne_nil _ _ hne))
    · rw [hsource, hstop, (front ++ next.2).byteLength_append]
      exact Nat.le_add_right _ _
    · rw [← hnext, ← Builder.run_of_mem_turns hturn]
  · exact fun s => Parsed.valid_of_mem_spans

end ServerPages
