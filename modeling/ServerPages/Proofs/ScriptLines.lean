import ServerPages.Proofs.Collected
import ServerPages.Proofs.PathOrder
import ServerPages.Proofs.RawText
import ServerPages.Text.Lines

/-! The scripts of a page keep their lines. The text in a script element is cut at its line feeds and each
line loses the carriage return at its end, but where a line stands is counted with all that was lost. So a
line is found in the page where its location says, whatever its line ends are. -/

namespace ServerPages

namespace Text

/-- The text without the carriage returns that stand in front of a line feed or at its end. -/
def withoutReturns : Text → Text
  | [] => []
  | c :: rest =>
    if c = '\r' ∧ rest.head?.all (· == '\n') then withoutReturns rest else c :: withoutReturns rest

theorem length_split (t : Text) (separator : Char) :
    (t.split separator).length = t.count separator + 1 := by
  induction t with
  | nil => rfl
  | cons c t ih =>
    rw [split]
    split
    · next hc => rw [List.length_cons, ih, hc, List.count_cons_self]
    · next hc =>
      rw [List.count_cons_of_ne hc, ← ih]
      cases hpieces : split t separator with
      | nil => exact absurd hpieces (split_ne_nil t separator)
      | cons piece pieces => rfl

theorem join_cons_append (separator front piece : Text) (pieces : List Text) :
    join separator ((front ++ piece) :: pieces) = front ++ join separator (piece :: pieces) := by
  cases pieces with
  | nil => rfl
  | cons second pieces => simp [join]

theorem join_split (t : Text) (separator : Char) : join [separator] (t.split separator) = t := by
  induction t with
  | nil => rfl
  | cons c t ih =>
    rw [split]
    split
    · next hc =>
      rw [join_cons (split_ne_nil t separator), ih, hc]
      rfl
    · cases hpieces : split t separator with
      | nil => exact absurd hpieces (split_ne_nil t separator)
      | cons piece pieces =>
        rw [hpieces] at ih
        exact (join_cons_append [separator] [c] piece pieces).trans (congrArg (c :: ·) ih)

theorem stripReturn_cons (c : Char) (line : Text) :
    stripReturn (c :: line) = if c = '\r' ∧ line = [] then [] else c :: stripReturn line := by
  unfold stripReturn before?
  rw [List.reverse_cons, List.reverse_singleton]
  cases hback : line.reverse with
  | nil =>
    obtain rfl := List.reverse_eq_nil_iff.1 hback
    by_cases hc : c = '\r' <;> simp [after?, hc]
  | cons last front =>
    obtain rfl : line = (last :: front).reverse := by rw [← hback, List.reverse_reverse]
    by_cases hlast : last = '\r' <;> simp [after?, hlast]

theorem isPrefix_stripReturn (line : Text) : stripReturn line <+: line := by
  induction line with
  | nil => exact List.prefix_refl _
  | cons c line ih =>
    rw [stripReturn_cons]
    split
    · exact List.nil_prefix
    · exact (List.prefix_cons_inj c).2 ih

theorem head?_all_iff_piece {t piece : Text} {pieces : List Text} {separator : Char}
    (h : t.split separator = piece :: pieces) :
    t.head?.all (· == separator) = true ↔ piece = [] := by
  cases t with
  | nil => cases h; simp
  | cons c t =>
    rw [split] at h
    split at h
    · next hc => cases h; simp [hc]
    · next hc =>
      cases hrest : split t separator with
      | nil => exact absurd hrest (split_ne_nil t separator)
      | cons first others =>
        rw [hrest] at h
        cases h
        simp [hc]

/-- The lines of a text, put together without the carriage returns at their ends. -/
theorem join_stripReturn (t : Text) :
    join ['\n'] ((t.split '\n').map stripReturn) = t.withoutReturns := by
  induction t with
  | nil => rfl
  | cons c t ih =>
    rw [withoutReturns, split]
    split
    · next hc =>
      have hne : (split t '\n').map stripReturn ≠ [] := by simpa using split_ne_nil t '\n'
      rw [List.map_cons, join_cons hne, ih, hc]
      rfl
    · cases hpieces : split t '\n' with
      | nil => exact absurd hpieces (split_ne_nil t '\n')
      | cons piece pieces =>
        rw [hpieces, List.map_cons] at ih
        simp only [head?_all_iff_piece hpieces, List.map_cons, stripReturn_cons]
        split
        · next hreturn => rw [← ih, hreturn.2]; rfl
        · rw [← ih]
          exact join_cons_append ['\n'] [c] (stripReturn piece) _

example : withoutReturns "a\r\r\nb\r".toList = "a\r\nb".toList := by decide

end Text

namespace Site

variable {site : Site}

theorem text_scriptLines (offset : Nat) (pieces : List Text) :
    (site.scriptLines offset pieces).map (·.text) = pieces.map Text.stripReturn := by
  induction pieces generalizing offset with
  | nil => rfl
  | cons piece pieces ih => rw [scriptLines, List.map_cons, List.map_cons, ih]

/-- A line stands behind as many line feeds as there are lines before it, the last of them right before
it. -/
theorem scriptLines_getElem? {offset k : Nat} {pieces : List Text} {line : ScriptLine}
    (h : (site.scriptLines offset pieces)[k]? = some line) (hflat : ∀ piece ∈ pieces, '\n' ∉ piece) :
    ∃ before after, Text.join ['\n'] pieces = before ++ (line.text ++ after) ∧
      before.count '\n' = k ∧ (before = [] ∨ before.getLast? = some '\n') ∧ '\n' ∉ line.text ∧
      line.location = site.locate (Fragment.span ⟨offset + before.byteLength, line.text⟩) := by
  induction pieces generalizing offset k with
  | nil => simp [scriptLines] at h
  | cons piece pieces ih =>
    obtain ⟨hpiece, hpieces⟩ := List.forall_mem_cons.1 hflat
    rw [scriptLines] at h
    cases k with
    | zero =>
      obtain rfl := Option.some.inj h
      obtain ⟨rest, hrest⟩ := Text.isPrefix_stripReturn piece
      obtain ⟨more, hmore⟩ : ∃ more, Text.join ['\n'] (piece :: pieces) = piece ++ more := by
        have hjoin := Text.join_cons_append ['\n'] piece [] pieces
        rw [List.append_nil] at hjoin
        exact ⟨_, hjoin⟩
      refine ⟨[], rest ++ more, ?_, rfl, .inl rfl, ?_, rfl⟩
      · rw [hmore, List.nil_append, ← List.append_assoc, hrest]
      · exact fun hmem => hpiece ((Text.isPrefix_stripReturn piece).subset hmem)
    | succ k =>
      obtain ⟨before, after, hjoin, hcount, hlast, hline, hlocation⟩ := ih h hpieces
      have hne : pieces ≠ [] := by
        rintro rfl
        simp [scriptLines] at h
      -- the next line starts behind the whole piece, whatever the line of it lost
      refine ⟨piece ++ '\n' :: before, after, ?_, ?_, .inr ?_, hline, ?_⟩
      · rw [Text.join_cons hne, hjoin]
        simp
      · rw [List.count_append, List.count_cons_self, hcount, List.count_eq_zero.2 hpiece, Nat.zero_add]
      · rcases hlast with rfl | hlast
        · simp
        · simp [List.getLast?_cons, hlast]
      · rw [hlocation, Text.byteLength_append, Text.byteLength_cons, Nat.add_assoc, Nat.add_assoc,
          show Char.utf8Size '\n' = 1 from rfl]

theorem lines_script (site : Site) (content : Fragment) (s : Span) :
    (site.script (if content.text = [] then [] else [.literal content]) s).lines =
      if content.text = [] then [] else site.scriptLines content.offset (content.text.split '\n') := by
  split
  · rfl
  · simp [script]

end Site

namespace LineIndex

/-- Where a piece of a text without line feeds stands, and that it can be found there. -/
theorem locate_append (path front back : Text) {piece : Text} (hpiece : '\n' ∉ piece) :
    let location := (ofText (front ++ (piece ++ back))).locate path (Fragment.span ⟨front.byteLength, piece⟩)
    location.path = path ∧ location.start = .after front ∧ location.stop.line = location.start.line ∧
      (ofText (front ++ (piece ++ back))).offset? location.start = some front.byteLength ∧
      (ofText (front ++ (piece ++ back))).offset? location.stop =
        some (front.byteLength + piece.byteLength) := by
  have hstop := position_append (front ++ piece) back
  rw [List.append_assoc, Text.byteLength_append] at hstop
  have hline : ((front ++ piece).count '\n') = front.count '\n' := by
    rw [List.count_append, List.count_eq_zero.2 hpiece, Nat.add_zero]
  refine ⟨rfl, position_append front _, ?_, offset?_position _ ?_, offset?_position _ ?_⟩
  · simp only [locate, Fragment.span, hstop, position_append, Position.after, hline]
  · simp [Fragment.span]
  · simp [Fragment.span, ← Nat.add_assoc]

end LineIndex

theorem Fragment.exists_between {source : Text} {start stop : Nat} (hstart : source.IsBoundary start)
    (hstop : source.IsBoundary stop) (hle : start ≤ stop) :
    ∃ content : Fragment, content.StandsIn source ∧ content.offset = start ∧ content.span.stop = stop := by
  obtain ⟨front, rest, hfront, rfl⟩ := hstart
  obtain ⟨all, back, hall, rfl⟩ := hstop
  have hdrop := Text.dropBytes?_append all back
  rw [← hall, hfront] at hdrop
  obtain ⟨part, rfl, hlength⟩ := Text.exists_of_dropBytes? hdrop hle
  exact ⟨⟨front.byteLength, part⟩, ⟨front, back, hfront, rfl⟩, rfl, hlength.symm⟩

namespace Tag

theorem isRaw_of_isScript {tag : Tag} (h : tag.isScript = true) :
    Builder.isRaw tag = true ∧ tag.runatServer = true := by
  simp only [isScript, Bool.and_eq_true] at h
  obtain ⟨⟨hscope, hruns⟩, hnamed⟩ := h
  refine ⟨?_, hruns⟩
  rw [Builder.isRaw, hscope, Bool.true_and]
  exact List.any_eq_true.2 ⟨_, List.mem_cons_self .., hnamed⟩

/-- Where the content of an element with raw text ends. -/
def contentStop (source : Text) (tag : Tag) : Closing → Nat
  | .closed place => place.offset
  | .endOfInput => source.byteLength
  | .selfClosing | .unclosed => tag.opening.span.stop

end Tag

section

variable {source : Text} {tag : Tag} {closing : Closing} {children : List Node}

/-- The content of an element that runs on the server is a piece of the page. -/
theorem RawContent.exists_content {stop : Nat} (h : RawContent source tag children stop)
    (hruns : tag.runatServer = true) (hstart : source.IsBoundary tag.opening.span.stop)
    (hstop : source.IsBoundary stop) : ∃ content : Fragment, content.StandsIn source ∧
      content.offset = tag.opening.span.stop ∧ content.span.stop = stop ∧
      children = if content.text = [] then [] else [.literal content] := by
  obtain ⟨content, hstands, hoffset, hend⟩ := Fragment.exists_between hstart hstop h.start_le
  have htext : (Span.mk tag.opening.span.stop stop).text source = content.text := by
    rw [← hoffset, ← hend]
    exact hstands.text_span
  refine ⟨content, hstands, hoffset, hend, ?_⟩
  rw [h.server hruns, htext]
  rw [← hoffset, ← hend]
  cases hcontent : content.text with
  | nil => simp [Fragment.span, hcontent]
  | cons c rest =>
    have hlength := Text.byteLength_pos (hcontent ▸ List.cons_ne_nil c rest)
    rw [if_neg (by simp only [Fragment.span]; omega), if_neg (List.cons_ne_nil c rest), ← hcontent]

/-- A script that runs on the server has its content as it stands in the page. -/
theorem exists_content (h : .element tag closing children ∈ Node.withinAll (parse source).nodes)
    (hscript : tag.isScript = true) :
    ∃ content : Fragment, content.StandsIn source ∧ content.offset = tag.opening.span.stop ∧
      content.span.stop = tag.contentStop source closing ∧
      children = if content.text = [] then [] else [.literal content] := by
  obtain ⟨hraw, hruns⟩ := Tag.isRaw_of_isScript hscript
  have hends : EndsRaw source tag children closing :=
    (guards_parse source).ended _ (Node.leave_mem_walk h) hraw
  have hstart := (attributes_of_enter (Node.enter_mem_walkAll none _ h)).1.valid.stop_boundary
  cases closing with
  | selfClosing =>
    obtain rfl : children = [] := hends
    obtain ⟨front, back, hsource, hoffset⟩ := hstart
    exact ⟨⟨tag.opening.span.stop, []⟩, ⟨front, back, hsource, hoffset⟩, rfl, rfl, rfl⟩
  | closed place =>
    have hleave := Node.leave_mem_walk h
    rw [← walk_parse] at hleave
    have hplace : place.span.Valid source := valid_of_mem_pieces hleave (List.mem_singleton_self _)
    exact hends.2.exists_content hruns hstart hplace.start_boundary
  | unclosed => exact hends.elim
  | endOfInput =>
    exact hends.exists_content hruns hstart ⟨source, [], (List.append_nil _).symm, rfl⟩

end

namespace Page

theorem exists_script {path source : Text} {lookup : Lookup} {script : Script}
    (h : script ∈ (ofSource path source lookup).scripts) :
    ∃ tag closing children, .element tag closing children ∈ Node.withinAll (parse source).nodes ∧
      tag.isScript = true ∧ script = (site path source lookup).script children
        (Node.span (.element tag closing children)) := by
  have hscripts : script ∈ ((site path source lookup).visitAll .empty (parse source).nodes).2.scripts := h
  rw [part_eq Findings.scripts rfl (fun _ _ => rfl) (fun _ => rfl)] at hscripts
  obtain ⟨spot, hspot, hown⟩ := List.mem_flatMap.1 hscripts
  have hown : (site path source lookup).script? spot = some script := Option.mem_toList.1 hown
  have hmem := mem_within_of_visited hspot
  unfold Site.script? at hown
  split at hown
  · next tag closing children hnode =>
    split at hown
    · next hscript =>
      rw [hnode] at hmem
      exact ⟨tag, closing, children, hmem, (Bool.and_eq_true_iff.1 hscript).1,
        (Option.some.inj hown).symm⟩
    · cases hown
  · cases hown

/-- The `k`-th line of a text that starts at `offset` is as many lines below, and the page has its text from
where its location starts to where that ends. -/
structure LineAt (path source : Text) (offset k : Nat) (line : ScriptLine) : Prop where
  path : line.location.path = path
  start_line : line.location.start.line = ((LineIndex.ofText source).position offset).line + k
  stop_line : line.location.stop.line = line.location.start.line
  start_column : 1 ≤ k → line.location.start.column = 0
  found : ∃ place : Fragment, place.StandsIn source ∧ place.text = line.text ∧
    (LineIndex.ofText source).offset? line.location.start = some place.span.start ∧
    (LineIndex.ofText source).offset? line.location.stop = some place.span.stop

theorem lineAt_of_scriptLines {path source : Text} {lookup : Lookup} {content : Fragment}
    (hstands : content.StandsIn source) {k : Nat} {line : ScriptLine}
    (h : ((site path source lookup).scriptLines content.offset (content.text.split '\n'))[k]? = some line) :
    LineAt path source content.offset k line := by
  obtain ⟨before, after, hjoin, hcount, hend, hflat, hlocation⟩ :=
    Site.scriptLines_getElem? h fun _ => Text.notMem_of_mem_split
  obtain ⟨front, back, hsource, hoffset⟩ := hstands
  rw [Text.join_split] at hjoin
  have hparts : source = (front ++ before) ++ (line.text ++ (after ++ back)) := by
    rw [hsource, hjoin]
    simp only [List.append_assoc]
  have hlocation : line.location = (LineIndex.ofText source).locate path
      (Fragment.span ⟨content.offset + before.byteLength, line.text⟩) := hlocation
  have hlocated := LineIndex.locate_append path (front ++ before) (after ++ back) hflat
  rw [← hparts, Text.byteLength_append, ← hoffset, ← hlocation] at hlocated
  obtain ⟨hpath, hstart, hstop, hfrom, hto⟩ := hlocated
  have hfront : (LineIndex.ofText source).position content.offset = .after front := by
    rw [hoffset, hsource]
    exact LineIndex.position_append front _
  have hstands : Fragment.StandsIn ⟨content.offset + before.byteLength, line.text⟩ source :=
    ⟨front ++ before, after ++ back, hparts, by rw [Text.byteLength_append, hoffset]⟩
  refine ⟨hpath, ?_, hstop, fun hk => ?_, _, hstands, rfl, hfrom, hto⟩
  · simp only [hstart, hfront, Position.after, List.count_append, hcount]
    omega
  · rcases hend with rfl | hend
    · exact absurd hcount (Nat.ne_of_lt hk)
    · obtain ⟨earlier, rfl⟩ := List.getLast?_eq_some_iff.1 hend
      simp [hstart, Position.after]

/-- The scripts of a page keep the lines of the text between their tags, each without the carriage return
at its end, and every line is where it stands in the page. -/
theorem read_scripts (path source : Text) (lookup : Lookup) :
    ∃ page, read path source lookup = .ok page ∧ ∀ script ∈ page.scripts,
      ∃ tag closing children, .element tag closing children ∈ Node.withinAll (parse source).nodes ∧
        tag.isScript = true ∧ script.location =
          (LineIndex.ofText source).locate path (Node.span (.element tag closing children)) ∧
        ∃ content : Fragment, content.StandsIn source ∧ content.offset = tag.opening.span.stop ∧
          content.span.stop = tag.contentStop source closing ∧
          script.text = content.text.withoutReturns ∧
          script.lines.length = (if content.text = [] then 0 else content.text.count '\n' + 1) ∧
          ∀ k line, script.lines[k]? = some line → LineAt path source content.offset k line := by
  refine ⟨_, read_eq_ok path source lookup, fun script hscript => ?_⟩
  obtain ⟨tag, closing, children, hmem, hisScript, rfl⟩ := exists_script hscript
  obtain ⟨content, hstands, hoffset, hstop, rfl⟩ := exists_content hmem hisScript
  refine ⟨tag, closing, _, hmem, hisScript, rfl, content, hstands, hoffset, hstop, ?_, ?_, ?_⟩
  · rw [Script.text, Site.lines_script]
    split
    · next hempty => rw [hempty]; rfl
    · rw [Site.text_scriptLines, Text.join_stripReturn]
  · rw [Site.lines_script]
    split
    · rfl
    · rw [← List.length_map, Site.text_scriptLines, List.length_map, Text.length_split]
  · intro k line hline
    rw [Site.lines_script] at hline
    split at hline
    · cases hline
    · exact lineAt_of_scriptLines hstands hline

end Page

end ServerPages
