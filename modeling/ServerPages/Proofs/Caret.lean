import ServerPages.Proofs.OneLine
import ServerPages.Proofs.ScriptLines

/-! The mark below the line of an error. A report shows the line that an error starts in and marks a column
below it. The line is cut out of the page by one reader of line ends and counted by another, and both agree;
the column is counted in bytes while the mark is set in characters. So the mark is below the character where
the error starts when all characters before it on its line are of one byte, and right of it otherwise. -/

namespace ServerPages

namespace Text

/-- A line ends where this text follows: at a line feed, with the carriage return before it, or at the end of
everything. -/
def EndsLine (line back : Text) : Prop :=
  back = [] ∨ ['\r', '\n'] <+: back ∨ ['\n'] <+: back ∧ line.getLast? ≠ some '\r'

/-- A line of a text with what is around it. -/
structure HasLine (t front line back : Text) : Prop where
  eq : t = front ++ (line ++ back)
  starts : front = [] ∨ front.getLast? = some '\n'
  flat : '\n' ∉ line
  ends : EndsLine line back

theorem EndsLine.cons {c : Char} {line back : Text} (h : EndsLine line back)
    (hc : c = '\r' → ¬ ['\n'] <+: line ++ back) : EndsLine (c :: line) back := by
  refine h.imp_right (Or.imp_right ?_)
  rintro ⟨hback, hlast⟩
  refine ⟨hback, ?_⟩
  cases line with
  | nil =>
    intro heq
    exact hc (Option.some.inj heq) hback
  | cons d line => rwa [List.getLast?_cons_cons]

theorem EndsLine.append (front : Text) {c : Char} {line back : Text} (h : EndsLine (c :: line) back) :
    EndsLine (front ++ c :: line) back := by
  unfold EndsLine
  rwa [List.getLast?_append_cons]

theorem exists_lineStart (t : Text) : ∃ front before, t = front ++ before ∧
    (front = [] ∨ front.getLast? = some '\n') ∧ '\n' ∉ before := by
  induction t using List.reverseRecOn with
  | nil => exact ⟨[], [], rfl, .inl rfl, List.not_mem_nil⟩
  | append_singleton t c ih =>
    obtain ⟨front, before, rfl, hstarts, hflat⟩ := ih
    by_cases hc : c = '\n'
    · exact ⟨front ++ before ++ [c], [], (List.append_nil _).symm, .inr (by simp [hc]), List.not_mem_nil⟩
    · refine ⟨front, before ++ [c], List.append_assoc .., hstarts, ?_⟩
      simp [hflat, Ne.symm hc]

theorem exists_lineEnd (t : Text) : ∃ after back, t = after ++ back ∧ '\n' ∉ after ∧
    EndsLine after back := by
  induction t with
  | nil => exact ⟨[], [], rfl, List.not_mem_nil, .inl rfl⟩
  | cons c t ih =>
    by_cases hfeed : c = '\n'
    · exact ⟨[], c :: t, rfl, List.not_mem_nil, .inr (.inr ⟨by simp [hfeed], by simp⟩)⟩
    by_cases hreturn : ['\r', '\n'] <+: c :: t
    · exact ⟨[], c :: t, rfl, List.not_mem_nil, .inr (.inl hreturn)⟩
    obtain ⟨after, back, rfl, hflat, hends⟩ := ih
    refine ⟨c :: after, back, rfl, by simp [hflat, Ne.symm hfeed], hends.cons ?_⟩
    rintro rfl hback
    exact hreturn ((List.prefix_cons_inj '\r').2 hback)

theorem exists_hasLine (front : Text) {c : Char} (rest : Text) (hfeed : c ≠ '\n') (hreturn : c ≠ '\r') :
    ∃ earlier before after back, front = earlier ++ before ∧
      HasLine (front ++ c :: rest) earlier (before ++ c :: after) back := by
  obtain ⟨earlier, before, rfl, hstarts, hbefore⟩ := exists_lineStart front
  obtain ⟨after, back, rfl, hafter, hends⟩ := exists_lineEnd rest
  have hline : EndsLine (c :: after) back := hends.cons fun hc => absurd hc hreturn
  refine ⟨earlier, before, after, back, rfl, by simp, hstarts, ?_, hline.append before⟩
  simp [hbefore, hafter, Ne.symm hfeed]

theorem stripReturn_append_singleton (line : Text) : stripReturn (line ++ ['\r']) = line := by
  simp [stripReturn, before?, after?]

theorem stripReturn_of_getLast? {line : Text} (h : line.getLast? ≠ some '\r') : stripReturn line = line := by
  induction line with
  | nil => rfl
  | cons c line ih =>
    rw [stripReturn_cons]
    cases line with
    | nil =>
      rw [if_neg fun hc => h (by simp [hc.1])]
      rfl
    | cons d line =>
      rw [List.getLast?_cons_cons] at h
      rw [if_neg (by simp), ih h]

theorem linesOf_cons (piece : Text) {pieces : List Text} (h : pieces ≠ []) :
    linesOf (piece :: pieces) = stripReturn piece :: linesOf pieces := by
  cases pieces with
  | nil => exact absurd rfl h
  | cons second pieces => cases piece <;> rfl

theorem linesOf_append (first : List Text) {pieces : List Text} (h : pieces ≠ []) :
    linesOf (first ++ pieces) = first.map stripReturn ++ linesOf pieces := by
  induction first with
  | nil => rfl
  | cons piece first ih =>
    rw [List.cons_append, linesOf_cons piece (List.append_ne_nil_of_right_ne_nil first h), ih]
    rfl

theorem head?_lines {line back : Text} (hne : line ≠ []) (hflat : '\n' ∉ line)
    (hends : EndsLine line back) :
    (lines (line ++ back)).head? = some line := by
  unfold lines
  rcases hends with rfl | ⟨more, rfl⟩ | ⟨⟨more, rfl⟩, hlast⟩
  · rw [List.append_nil, split_of_notMem hflat]
    obtain ⟨c, rest, rfl⟩ := List.exists_cons_of_ne_nil hne
    rfl
  · have hpiece : '\n' ∉ line ++ ['\r'] := by simp [hflat]
    have htext : line ++ (['\r', '\n'] ++ more) = (line ++ ['\r']) ++ '\n' :: more := by simp
    rw [htext, split_append_cons, split_of_notMem hpiece, List.singleton_append,
      linesOf_cons _ (split_ne_nil _ _), stripReturn_append_singleton, List.head?_cons]
  · rw [List.singleton_append, split_append_cons, split_of_notMem hflat, List.singleton_append,
      linesOf_cons _ (split_ne_nil _ _), stripReturn_of_getLast? hlast, List.head?_cons]

/-- A line has the number of the line feeds before it. -/
theorem HasLine.lines_getElem? {t front line back : Text} (h : t.HasLine front line back)
    (hne : line ≠ []) : t.lines[front.count '\n']? = some line := by
  have hfirst := head?_lines hne h.flat h.ends
  -- as many pieces are cut off in front of the line as there are line feeds
  obtain ⟨pieces, hlength, hsplit⟩ : ∃ pieces : List Text, pieces.length = front.count '\n' ∧
      t.split '\n' = pieces ++ split (line ++ back) '\n' := by
    rw [h.eq]
    rcases h.starts with rfl | hlast
    · exact ⟨[], rfl, rfl⟩
    · obtain ⟨earlier, rfl⟩ := List.getLast?_eq_some_iff.1 hlast
      refine ⟨split earlier '\n', by simp [length_split], ?_⟩
      rw [List.append_assoc, List.singleton_append, split_append_cons]
  rw [lines, hsplit, linesOf_append pieces (split_ne_nil _ _), ← hlength, ← List.length_map stripReturn,
    List.getElem?_append_right (Nat.le_refl _), Nat.sub_self, ← List.head?_eq_getElem?]
  exact hfirst

theorem byteLength_reverse (t : Text) : byteLength t.reverse = t.byteLength := by
  induction t with
  | nil => rfl
  | cons c t ih =>
    rw [List.reverse_cons, byteLength_append, ih, byteLength_cons, byteLength_cons, byteLength_nil]
    omega

theorem length_le_byteLength (t : Text) : t.length ≤ t.byteLength := by
  induction t with
  | nil => exact Nat.le_refl _
  | cons c t ih =>
    have := c.utf8Size_pos
    rw [List.length_cons, byteLength_cons]
    omega

theorem byteLength_eq_length_iff (t : Text) :
    t.byteLength = t.length ↔ ∀ c ∈ t, c.utf8Size = 1 := by
  induction t with
  | nil => simp
  | cons c t ih =>
    have := c.utf8Size_pos
    have := length_le_byteLength t
    rw [List.forall_mem_cons, ← ih, List.length_cons, byteLength_cons]
    omega

def BeginsInLine (t : Text) : Prop := ∃ c rest, t = c :: rest ∧ c ≠ '\n' ∧ c ≠ '\r'

theorem BeginsInLine.extend {part t : Text} (h : part.BeginsInLine) (hstart : part <+: t) :
    t.BeginsInLine := by
  obtain ⟨c, rest, rfl, hc⟩ := h
  obtain ⟨more, rfl⟩ := hstart
  exact ⟨c, rest ++ more, rfl, hc⟩

theorem InLine.beginsInLine {t : Text} (h : t.InLine) (hne : t ≠ []) : t.BeginsInLine := by
  obtain ⟨c, rest, rfl⟩ := List.exists_cons_of_ne_nil hne
  exact ⟨c, rest, rfl, h c (List.mem_cons_self ..)⟩

theorem beginsInLine_tag (rest : Text) : BeginsInLine ('<' :: rest) :=
  ⟨'<', rest, rfl, by decide, by decide⟩

end Text

theorem Problem.PointsAt.beginsInLine {source t : Text} {p : Problem} (h : p.PointsAt source t)
    (hnames : ∀ name ∈ p.defect.names, name.InLine) : t.BeginsInLine := by
  obtain ⟨defect, span⟩ := p
  cases defect with
  | unclosedTag name => exact (Text.beginsInLine_tag name).extend h
  | malformedServerTag name =>
    obtain rfl : t = '<' :: name := h
    exact Text.beginsInLine_tag name
  | unexpectedClosingTag name | runatOnClosingTag name | nestedDirective _ name =>
    obtain ⟨inside, rfl⟩ := h
    exact Text.beginsInLine_tag _
  | duplicateAttribute name | codeInServerTag name =>
    obtain ⟨hne, hstart, -⟩ := h
    exact ((hnames name (List.mem_cons_self ..)).beginsInLine hne).extend hstart
  | malformedDirective text =>
    obtain ⟨rfl, hne, hspace, -⟩ := h
    obtain ⟨c, rest, rfl⟩ := List.exists_cons_of_ne_nil hne
    have hc : Text.isSpace c = false := hspace c rfl
    exact ⟨c, rest, rfl, (Text.ne_of_class (by decide) hc).symm, (Text.ne_of_class (by decide) hc).symm⟩
  | unterminatedDirective => exact (Text.beginsInLine_tag _).extend h
  | unterminatedComment | unterminatedCode => exact (Text.beginsInLine_tag _).extend h.1
  | strayEnd =>
    obtain rfl : t = ['%', '>'] := h
    exact ⟨'%', ['>'], rfl, by decide, by decide⟩

theorem Tag.beginsInLine {source : Text} {tag : Tag}
    (h : .enter tag ∈ Node.walkAll none (parse source).nodes) :
    (tag.opening.span.text source).BeginsInLine := by
  obtain ⟨turn, hturn, -, -, name, attributes, selfClosing, htoken, rfl⟩ := exists_opens h
  have hwrites := Turn.writes_lexeme hturn
  rw [htoken] at hwrites
  obtain ⟨-, -, mark, htext⟩ := hwrites
  have hspan : (Tag.ofLexeme name ⟨turn.offset + 1 + name.byteLength, attributes⟩
      turn.lexeme).opening.span.text source = turn.lexeme.text := Turn.text_lexeme hturn
  rw [hspan, htext]
  exact Text.beginsInLine_tag _

namespace Site

variable {site : Site} {source : Text}

theorem beginsInLine_of_notice? {spot : Spot} {n : Notice}
    (hnode : spot.node ∈ Node.withinAll (parse source).nodes) (h : site.notice? spot = some n) :
    (n.span.text source).BeginsInLine := by
  obtain ⟨around, registered, node⟩ := spot
  cases node with
  | element tag closing children =>
    obtain ⟨error, -, rfl⟩ := Option.map_eq_some_iff.1 h
    exact Tag.beginsInLine (Node.enter_mem_walkAll none _ hnode)
  | _ => cases h

end Site

/-- The position within a line of a text. -/
theorem Position.after_append {front before : Text} (hstarts : front = [] ∨ front.getLast? = some '\n')
    (hflat : '\n' ∉ before) :
    Position.after (front ++ before) = ⟨front.count '\n' + 1, before.byteLength⟩ := by
  have hcount : (front ++ before).count '\n' = front.count '\n' := by
    rw [List.count_append, List.count_eq_zero.2 hflat, Nat.add_zero]
  have hbefore : ∀ c ∈ before.reverse, (c != '\n') = true := by
    intro c hc
    rw [bne_iff_ne]
    rintro rfl
    exact hflat (List.mem_reverse.1 hc)
  have hfront : front.reverse.takeWhile (· != '\n') = [] := by
    rcases hstarts with rfl | hlast
    · rfl
    · obtain ⟨earlier, rfl⟩ := List.getLast?_eq_some_iff.1 hlast
      simp
  rw [Position.after, hcount, List.reverse_append, List.takeWhile_append_of_pos hbefore, hfront,
    List.append_nil, Text.byteLength_reverse]

/-- Text within a span begins within a line of the page, and the span is located there. -/
theorem Span.Valid.exists_line {path source : Text} {s : Span} (hvalid : s.Valid source)
    (hbegins : (s.text source).BeginsInLine) : ∃ front before c after back,
      source.HasLine front (before ++ c :: after) back ∧ s.start = (front ++ before).byteLength ∧
      ((LineIndex.ofText source).locate path s).start = ⟨front.count '\n' + 1, before.byteLength⟩ := by
  obtain ⟨content, hstands, hstart, hstop⟩ :=
    Fragment.exists_between hvalid.start_boundary hvalid.stop_boundary hvalid.start_le_stop
  have hspan : content.span = s := by
    obtain ⟨start, stop⟩ := s
    exact congrArg₂ Span.mk hstart hstop
  rw [← hspan, hstands.text_span] at hbegins
  obtain ⟨c, rest, htext, hfeed, hreturn⟩ := hbegins
  obtain ⟨head, tail, rfl, hoffset⟩ := hstands
  obtain ⟨front, before, after, back, rfl, hline⟩ := Text.exists_hasLine head (rest ++ tail) hfeed hreturn
  rw [htext, List.cons_append]
  refine ⟨front, before, c, after, back, hline, hstart ▸ hoffset, ?_⟩
  have hflat : '\n' ∉ before := fun hmem => hline.flat (List.mem_append_left _ hmem)
  rw [← Position.after_append hline.starts hflat, LineIndex.locate, ← hstart, hoffset]
  exact LineIndex.position_append _ _

namespace PageError

/-- What stands before a row of a snippet: the number of its line, or as many blanks. -/
def gutter (shown : Text) : Text := "  ".toList ++ shown ++ " | ".toList

theorem length_gutter (shown : Text) : (gutter shown).length = shown.length + 5 := by
  have hleft : "  ".toList.length = 2 := by decide
  have hright : " | ".toList.length = 3 := by decide
  rw [gutter, List.length_append, List.length_append, hleft, hright]
  omega

/-- An error is shown with the line of its number, and a mark below at its column. -/
theorem verbose_eq (path : Text) {lines : List Text} {line : Text} {e : PageError} {number column : Nat}
    (hstart : e.location.start = ⟨number + 1, column⟩) (hline : lines[number]? = some line) :
    e.verbose path lines = e.headline path ++
      (gutter (Text.ofNat (number + 1)) ++ line ++
        '\n' :: gutter (List.replicate (Text.ofNat (number + 1)).length ' ') ++ List.replicate column ' ' ++
          "^\n".toList) ++ ['\n'] := by
  unfold verbose snippet
  rw [hstart, Nat.add_sub_cancel, hline]
  rfl

end PageError

namespace Page

theorem exists_line {path source : Text} {lookup : Lookup} {error : PageError}
    (h : error ∈ (ofSource path source lookup).errors) : ∃ front before c after back,
      source.HasLine front (before ++ c :: after) back ∧
      error.location.start = ⟨front.count '\n' + 1, before.byteLength⟩ ∧
      (LineIndex.ofText source).offset? error.location.start = some (front ++ before).byteLength := by
  obtain ⟨s, hvalid, hbegins, hlocation⟩ : ∃ s : Span, s.Valid source ∧ (s.text source).BeginsInLine ∧
      error.location = (LineIndex.ofText source).locate path s := by
    rcases exists_notice h with ⟨p, hp, rfl⟩ | ⟨spot, n, hnode, hnotice, rfl⟩
    · exact ⟨p.span, valid_of_mem_problems hp,
        (pointsAt_of_mem_problems hp).beginsInLine (inLine_of_mem_problems hp), rfl⟩
    · exact ⟨n.span, Site.valid_of_notice? hnode hnotice, Site.beginsInLine_of_notice? hnode hnotice, rfl⟩
  obtain ⟨front, before, c, after, back, hline, hoffset, hstart⟩ := hvalid.exists_line hbegins
  refine ⟨front, before, c, after, back, hline, hlocation ▸ hstart, ?_⟩
  rw [hlocation, ← hoffset]
  exact LineIndex.offset?_position source (Nat.le_trans hvalid.start_le_stop hvalid.stop_le)

/-- For people every error of a page is printed with the line it starts in, without the end of that line,
and below it a mark. Before the mark there are as many characters as before the one where the error starts
exactly when those before it on its line are of one byte each. -/
theorem read_snippets (path source : Text) (lookup : Lookup) :
    ∃ page, read path source lookup = .ok page ∧
      OutputFormat.humanVerbose.render path source page.errors =
        page.errors.flatMap (·.verbose path source.lines) ∧
      ∀ error ∈ page.errors, ∃ front before c after back shown marked,
        source.HasLine front (before ++ c :: after) back ∧
        (LineIndex.ofText source).offset? error.location.start = some (front ++ before).byteLength ∧
        error.verbose path source.lines = error.headline path ++
          (shown ++ c :: after ++ '\n' :: marked ++ "^\n".toList) ++ ['\n'] ∧
        shown = PageError.gutter (Text.ofNat (front.count '\n' + 1)) ++ before ∧
        marked = PageError.gutter (List.replicate (Text.ofNat (front.count '\n' + 1)).length ' ') ++
          List.replicate before.byteLength ' ' ∧
        (marked.length = shown.length ↔ ∀ d ∈ before, d.utf8Size = 1) := by
  refine ⟨_, read_eq_ok path source lookup, rfl, fun error herror => ?_⟩
  obtain ⟨front, before, c, after, back, hline, hstart, hoffset⟩ := exists_line herror
  refine ⟨front, before, c, after, back, _, _, hline, hoffset, ?_, rfl, rfl, ?_⟩
  · have hfound := hline.lines_getElem? (List.append_ne_nil_of_right_ne_nil before (List.cons_ne_nil c after))
    rw [PageError.verbose_eq path hstart hfound]
    generalize "^\n".toList = mark
    simp only [List.append_assoc, List.cons_append]
  · rw [← Text.byteLength_eq_length_iff]
    simp only [List.length_append, PageError.length_gutter, List.length_replicate]
    omega

/-- A character of two bytes before an error moves the mark off the error. -/
theorem read_snippets_twoBytes :
    ∃ page, read ['p'] "é<foo:Bar/>".toList (fun _ _ => none) = .ok page ∧
      OutputFormat.humanVerbose.render ['p'] "é<foo:Bar/>".toList page.errors =
        "p:1:3\nError: Unknown web control: foo:Bar\n".toList ++
          "  1 | é".toList ++ "<foo:Bar/>\n".toList ++ "    |   ".toList ++ "^\n\n".toList ∧
      "    |   ".toList.length ≠ "  1 | é".toList.length := by
  refine ⟨_, read_eq_ok .., ?_, ?_⟩
  · decide +kernel
  · decide

end Page

end ServerPages
