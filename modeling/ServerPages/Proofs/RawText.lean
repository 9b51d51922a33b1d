import ServerPages.Proofs.Invariant
import ServerPages.Proofs.LoweredLexeme

/-! Elements with raw text. Inside `script` and `style` no element starts, and only a closing tag of the
same name ends the element; in those that do not run on the server, `<%` blocks are read as well. So the
first closing tag of the name ends the element, unless a block covers it. -/

namespace ServerPages

def Token.startsBlock : Token → Bool
  | .comment | .directive _ | .code _ _ | .binding _ _ => true
  | .unterminatedComment | .unterminatedDirective | .unterminatedCode => true
  | _ => false

/-- The text starts with a closing tag of this name. -/
def Lexeme.Closes (name t : Text) : Prop :=
  ∃ written, (scan t).token = .closeTag written ∧ written.same name = true

namespace Lexeme

theorem startsBlock_scanBlock (t : Text) : (scanBlock t).token.startsBlock = true := by
  have hcode : ∀ body, (codeToken body).startsBlock = true := by
    intro body
    unfold codeToken
    split <;> rfl
  unfold scanBlock
  dsimp only
  split
  · split <;> rfl
  · split
    · split <;> rfl
    · rfl
  · split
    · exact hcode _
    · rfl

theorem token_scan_eq_closeTag_iff {t name : Text} : (scan t).token = .closeTag name ↔
    ∃ u rest, t = ['<', '/'] ++ u ∧ Tag.closing? u = some (name, rest) := by
  constructor
  · intro h
    rcases eq_or_ne t [] with rfl | ht
    · cases h
    rcases scan_cases ht with ⟨body, -, hscan⟩ | ⟨u, rfl, hscan⟩ | ⟨u, -, hscan⟩ | ⟨c, u, -, -, hscan⟩
    · have hblock := startsBlock_scanBlock body
      rw [← hscan, h] at hblock
      cases hblock
    · rw [hscan, scanClosing] at h
      split at h
      · next written rest hclosing =>
        cases h
        exact ⟨u, rest, rfl, hclosing⟩
      · dsimp only at h
        split at h <;> cases h
    · rw [hscan, scanOpening] at h
      split at h
      · cases h
      · split at h <;> cases h
    · rw [hscan] at h
      cases h
  · rintro ⟨u, rest, rfl, hclosing⟩
    simp [scan, scanClosing, hclosing]

end Lexeme

/-- Raw text ends in front of a closing tag of the element's name, and where code is allowed in front of
a block. -/
theorem endsRaw_iff {name t : Text} {allowCode : Bool} : endsRaw name allowCode t = true ↔
    allowCode = true ∧ ['<', '%'] <+: t ∨ Lexeme.Closes name t := by
  have hblock : (t.after? ['<', '%']).isSome = true ↔ ['<', '%'] <+: t := by
    rw [Option.isSome_iff_exists]
    exact ⟨fun ⟨u, hu⟩ => ⟨u, (Text.after?_eq_some hu).symm⟩,
      fun ⟨u, hu⟩ => ⟨u, Text.after?_eq_some_iff.2 hu.symm⟩⟩
  have hclosing : ((t.after? ['<', '/']).bind Tag.closing?).any (·.1.same name) = true ↔
      Lexeme.Closes name t := by
    simp only [Option.any_eq_true, Option.bind_eq_some_iff, Text.after?_eq_some_iff, Lexeme.Closes,
      Lexeme.token_scan_eq_closeTag_iff]
    constructor
    · rintro ⟨⟨written, rest⟩, ⟨u, hu, hclosing⟩, hsame⟩
      exact ⟨written, ⟨u, rest, hu, hclosing⟩, hsame⟩
    · rintro ⟨written, ⟨u, rest, hu, hclosing⟩, hsame⟩
      exact ⟨(written, rest), ⟨u, hu, hclosing⟩, hsame⟩
  rw [endsRaw, Bool.or_eq_true, Bool.and_eq_true, hblock, hclosing, and_comm]

/-- Raw text goes on to the first place where it ends. -/
theorem rawText_spec (name : Text) (allowCode : Bool) (t : Text) :
    ∃ rest, t = rawText name allowCode t ++ rest ∧ (rest = [] ∨ endsRaw name allowCode rest = true) ∧
      ∀ front u, t = front ++ u → front.length < (rawText name allowCode t).length →
        endsRaw name allowCode u = false := by
  induction t with
  | nil => exact ⟨[], rfl, .inl rfl, fun front u _ h => absurd h (Nat.not_lt_zero _)⟩
  | cons c t ih =>
    obtain ⟨rest, hrest, hend, hinside⟩ := ih
    rw [rawText_eq]
    split
    · next hends => exact ⟨c :: t, rfl, .inr hends, fun front u _ h => absurd h (Nat.not_lt_zero _)⟩
    · next hgoes =>
      refine ⟨rest, congrArg (c :: ·) hrest, hend, ?_⟩
      rintro (_ | ⟨d, front⟩) u hsplit hlength
      · rw [← show c :: t = u from hsplit]
        exact Bool.eq_false_iff.2 hgoes
      · cases hsplit
        exact hinside front u rfl (Nat.lt_of_succ_lt_succ hlength)

theorem rawText_eq_nil_iff {name t : Text} {allowCode : Bool} :
    rawText name allowCode t = [] ↔ t = [] ∨ endsRaw name allowCode t = true := by
  cases t with
  | nil => simp [rawText]
  | cons c t =>
    rw [rawText_eq]
    split <;> simp_all

theorem Text.exists_of_dropBytes? {front rest u : Text} {n : Nat}
    (h : (front ++ rest).dropBytes? n = some u) (hle : front.byteLength ≤ n) :
    ∃ part, rest = part ++ u ∧ n = front.byteLength + part.byteLength := by
  induction front generalizing n with
  | nil =>
    obtain ⟨part, hpart, hn⟩ := dropBytes?_eq_some h
    exact ⟨part, hpart, by simpa using hn⟩
  | cons c front ih =>
    rw [byteLength_cons] at hle ⊢
    obtain ⟨m, rfl⟩ := Nat.exists_eq_add_of_le (Nat.le_trans (Nat.le_add_right _ _) hle)
    rw [List.cons_append, dropBytes?_cons_add] at h
    obtain ⟨part, hpart, hm⟩ := ih h (by omega)
    exact ⟨part, hpart, by omega⟩

/-- A closing tag of this name stands at the offset. -/
def ClosesAt (source name : Text) (offset : Nat) : Prop :=
  ∃ written text, Lexeme.at? source offset = some ⟨.closeTag written, text⟩ ∧ written.same name = true

theorem closesAt_iff {source name : Text} {offset : Nat} : ClosesAt source name offset ↔
    ∃ t, source.dropBytes? offset = some t ∧ Lexeme.Closes name t := by
  constructor
  · rintro ⟨written, text, hat, hsame⟩
    obtain ⟨t, ht, hscan⟩ := Option.map_eq_some_iff.1 hat
    exact ⟨t, ht, written, congrArg Lexeme.token hscan, hsame⟩
  · rintro ⟨t, ht, written, htoken, hsame⟩
    refine ⟨written, (Lexeme.scan t).text, ?_, hsame⟩
    rw [Lexeme.at?, ht, Option.map_some, ← htoken]

/-- In the element with this tag a block was read that reaches over the offset and not past `stop`. -/
def InBlock (source : Text) (tag : Tag) (stop offset : Nat) : Prop :=
  ∃ turn ∈ turns source, turn.builder.parent? = some tag ∧ turn.token.startsBlock = true ∧
    Lexeme.at? source turn.offset = some ⟨turn.token, turn.place.text⟩ ∧
    turn.offset ≤ offset ∧ offset < turn.place.span.stop ∧ turn.place.span.stop ≤ stop

theorem InBlock.mono {source : Text} {tag : Tag} {stop later offset : Nat}
    (h : InBlock source tag stop offset) (hle : stop ≤ later) : InBlock source tag later offset := by
  obtain ⟨turn, hturn, hparent, hblock, hat, hfrom, hto, hwithin⟩ := h
  exact ⟨turn, hturn, hparent, hblock, hat, hfrom, hto, Nat.le_trans hwithin hle⟩

/-- The children of an element with raw text, from its opening tag up to `stop`. No element is among
them, and a closing tag of the name stands in blocks only; what runs on the server has no blocks and is
one literal. -/
structure RawContent (source : Text) (tag : Tag) (children : List Node) (stop : Nat) : Prop where
  start_le : tag.opening.span.stop ≤ stop
  leaves : ∀ child ∈ children, child.closing? = none
  covered : ∀ offset, tag.opening.span.stop ≤ offset → offset < stop → ClosesAt source tag.name offset →
    tag.runatServer = false ∧ InBlock source tag stop offset
  server : tag.runatServer = true → children =
    if tag.opening.span.stop = stop then []
    else [.literal ⟨tag.opening.span.stop, (Span.mk tag.opening.span.stop stop).text source⟩]

namespace RawContent

variable {source : Text} {tag : Tag} {children : List Node} {stop : Nat}

theorem opened (source : Text) (tag : Tag) : RawContent source tag [] tag.opening.span.stop where
  start_le := Nat.le_refl _
  leaves := by simp
  covered := fun offset hle hlt => absurd hlt (Nat.not_lt.2 hle)
  server := fun _ => (if_pos rfl).symm

theorem literal {place : Fragment} (h : RawContent source tag children place.offset)
    (hplace : place.StandsIn source) (hne : place.text ≠ [])
    (hinside : ∀ offset, place.offset ≤ offset → offset < place.span.stop →
      ¬ClosesAt source tag.name offset)
    (hserver : tag.runatServer = true → place.offset = tag.opening.span.stop) :
    RawContent source tag (children ++ [.literal place]) place.span.stop := by
  have hlength := Text.byteLength_pos hne
  have hlt : place.offset < place.span.stop := Nat.lt_add_of_pos_right hlength
  have hle := Nat.le_of_lt hlt
  refine ⟨Nat.le_trans h.start_le hle, ?_, ?_, ?_⟩
  · intro child hchild
    rcases List.mem_append.1 hchild with hchild | hchild
    · exact h.leaves child hchild
    · rw [List.mem_singleton.1 hchild]
      rfl
  · intro offset hstart hstop hcloses
    by_cases hbefore : offset < place.offset
    · obtain ⟨hplain, hblock⟩ := h.covered offset hstart hbefore hcloses
      exact ⟨hplain, hblock.mono hle⟩
    · exact absurd hcloses (hinside offset (Nat.not_lt.1 hbefore) hstop)
  · intro hrunat
    have hstart := hserver hrunat
    have hspan : (Span.mk tag.opening.span.stop place.span.stop).text source = place.text := by
      rw [← hstart]
      exact hplace.text_span
    rw [h.server hrunat, if_pos hstart.symm, if_neg (by omega), hspan, ← hstart]
    rfl

/-- A block goes on, whatever of it becomes a child. -/
theorem block {turn : Turn} (h : RawContent source tag children turn.offset) (hturn : turn ∈ turns source)
    (hparent : turn.builder.parent? = some tag) (hplain : tag.runatServer = false)
    (hblock : turn.token.startsBlock = true)
    (hat : Lexeme.at? source turn.offset = some ⟨turn.token, turn.place.text⟩) (more : List Node)
    (hmore : ∀ child ∈ more, child.closing? = none) :
    RawContent source tag (children ++ more) turn.place.span.stop := by
  have hle : turn.offset ≤ turn.place.span.stop := Nat.le_add_right _ _
  refine ⟨Nat.le_trans h.start_le hle, ?_, ?_, fun hrunat => by simp [hplain] at hrunat⟩
  · intro child hchild
    rcases List.mem_append.1 hchild with hchild | hchild
    · exact h.leaves child hchild
    · exact hmore child hchild
  · intro offset hstart hstop hcloses
    by_cases hbefore : offset < turn.offset
    · exact ⟨hplain, (h.covered offset hstart hbefore hcloses).2.mono hle⟩
    · exact ⟨hplain, turn, hturn, hparent, hblock, hat, Nat.not_lt.1 hbefore, hstop, Nat.le_refl _⟩

end RawContent

/-- An element with raw text closes itself and is empty, or has raw text up to its closing tag or to the
end of the page. -/
def EndsRaw (source : Text) (tag : Tag) (children : List Node) : Closing → Prop
  | .selfClosing => children = []
  | .closed place =>
    (∃ written, Lexeme.at? source place.offset = some ⟨.closeTag written, place.text⟩ ∧
      written.same tag.name = true) ∧ RawContent source tag children place.offset
  | .unclosed => False
  | .endOfInput => RawContent source tag children source.byteLength

def Event.EndsRaw (source : Text) : Event → Prop
  | .leave tag closing children =>
    Builder.isRaw tag = true → ServerPages.EndsRaw source tag children closing
  | _ => True

/-- An open element has its raw content up to the offset. If it runs on the server, either nothing of it
is read, or all. -/
structure Reading (source : Text) (tag : Tag) (children : List Node) (offset : Nat) : Prop
    extends RawContent source tag children offset where
  whole : tag.runatServer = true → offset = tag.opening.span.stop ∨
    ∀ t, source.dropBytes? offset = some t → rawText tag.name false t = []

namespace Builder

/-- Only the innermost open element may have raw text, which it has up to the offset; and those that
ended did so as they should. -/
structure Guards (source : Text) (b : Builder) (offset : Nat) : Prop where
  around : ∀ frame ∈ b.stack.tail, isRaw frame.tag = false
  ended : ∀ event ∈ b.walk, event.EndsRaw source
  reading : ∀ frame ∈ b.stack.head?, isRaw frame.tag = true →
    Reading source frame.tag frame.children.reverse offset

/-- No open element has raw text, and those that ended did so as they should. -/
def Plain (source : Text) (b : Builder) : Prop := b.Keeps (isRaw · = false) (Event.EndsRaw source)

variable {source : Text} {b : Builder} {frame : Frame} {outer : List Frame} {offset : Nat}

theorem endsRaw_leave_of_plain (source : Text) (tag : Tag) (closing : Closing) (children : List Node)
    (h : isRaw tag = false) : (Event.leave tag closing children).EndsRaw source :=
  fun hraw => absurd hraw (by simp [h])

theorem Guards.note (h : b.Guards source offset) (reports : List Problem) :
    (b.note reports).Guards source offset :=
  ⟨h.around, h.ended, h.reading⟩

theorem Guards.of_plain (h : b.Plain source) (offset : Nat) : b.Guards source offset where
  around := fun frame hframe => h.tags _ (List.mem_map_of_mem (List.mem_of_mem_tail hframe))
  ended := h.events
  reading := fun frame hframe hraw => by
    have hplain := h.tags _ (List.mem_map_of_mem (List.mem_of_head? hframe))
    simp [hplain] at hraw

theorem Guards.plain (h : b.Guards source offset) (htop : ∀ frame ∈ b.stack.head?, isRaw frame.tag = false) :
    b.Plain source where
  tags := by
    intro tag htag
    obtain ⟨frame, hframe, rfl⟩ := List.mem_map.1 htag
    cases hs : b.stack with
    | nil => simp [hs] at hframe
    | cons top outer =>
      rw [hs] at hframe
      rcases List.mem_cons.1 hframe with rfl | hframe
      · exact htop _ (by simp [hs])
      · exact h.around _ (by simpa [hs] using hframe)
  events := h.ended

/-- What is around an element with raw text has none. -/
theorem Guards.leave (h : b.Guards source offset) (hs : b.stack = frame :: outer) {closing : Closing}
    (hends : ServerPages.EndsRaw source frame.tag frame.children.reverse closing) :
    (b.leave frame outer closing).Plain source where
  tags := by
    rw [shape_leave hs]
    intro tag htag
    obtain ⟨below, hbelow, rfl⟩ := List.mem_map.1 htag
    exact h.around below (by simpa [hs] using hbelow)
  events := by
    rw [walk_leave hs]
    intro event hevent
    rcases List.mem_append.1 hevent with hevent | hevent
    · exact h.ended event hevent
    · rw [List.mem_singleton.1 hevent]
      exact fun _ => hends

theorem Guards.push (h : b.Guards source offset) (hs : b.stack = frame :: outer) {node : Node}
    (hnode : node.closing? = none) {stop : Nat}
    (hreading : Reading source frame.tag (frame.children.reverse ++ [node]) stop) :
    (b.push node).Guards source stop := by
  have hpush : (b.push node).stack = { frame with children := node :: frame.children } :: outer := by
    simp [Builder.push, hs]
  refine ⟨?_, ?_, ?_⟩
  · rw [hpush]
    exact fun below hbelow => h.around below (by simpa [hs] using hbelow)
  · rw [walk_push]
    intro event hevent
    rcases List.mem_append.1 hevent with hevent | hevent
    · exact h.ended event hevent
    · cases node with
      | element tag closing children => cases hnode
      | _ =>
        rw [List.mem_singleton.1 hevent]
        trivial
  · rw [hpush]
    rintro _ ⟨⟩ -
    simpa using hreading

end Builder

namespace Turn

variable {source : Text} {turn : Turn} {frame : Frame} {outer : List Frame}

theorem of_startsBlock (hraw : turn.builder.rawRun turn.rest = []) (h : turn.token.startsBlock = true) :
    turn.place = turn.lexeme ∧
      (turn.effect = .nothing ∨ ∃ node, turn.effect = .add node ∧ node.closing? = none) := by
  rw [place_of_lexeme hraw, effect_eq hraw]
  cases htoken : turn.token with
  | openTag | closeTag | text | malformedServerTag | runatOnClosingTag =>
    rw [htoken] at h
    cases h
  | comment | unterminatedComment | unterminatedDirective => exact ⟨rfl, .inl rfl⟩
  | directive | code | binding | unterminatedCode => exact ⟨rfl, .inr ⟨_, rfl, rfl⟩⟩

theorem stop_of_enter {tag : Tag} (h : turn.effect = .enter tag) :
    turn.place.span.stop = tag.opening.span.stop := by
  obtain ⟨hraw, hpart, name, attributes, htoken, rfl⟩ := of_enter h
  have hread : turn.token.read turn.lexeme = turn.lexeme.text := by
    have hpart : (Tag.ofLexeme name ⟨(Token.openTag name attributes false).innerOffset turn.lexeme.offset,
        attributes⟩ turn.lexeme).textPart? = none := hpart
    rw [htoken, Token.read, hpart, Option.getD_none]
  rw [place_of_lexeme hraw, hread]
  rfl

theorem not_closesAt_of_raw (h : turn ∈ turns source) {name : Text} {allowCode : Bool} {offset : Nat}
    (hfrom : turn.offset ≤ offset)
    (hto : offset < turn.offset + (rawText name allowCode turn.rest).byteLength) :
    ¬ClosesAt source name offset := by
  rw [closesAt_iff]
  rintro ⟨u, hu, hcloses⟩
  obtain ⟨-, front, rfl, hoffset⟩ := Builder.rest_of_mem_turns h
  obtain ⟨part, hpart, hlength⟩ := Text.exists_of_dropBytes? hu (by omega)
  obtain ⟨rest, hrest, -, hinside⟩ := rawText_spec name allowCode turn.rest
  refine Bool.false_ne_true ((hinside part u hpart ?_).symm.trans (endsRaw_iff.2 (.inr hcloses)))
  -- a part that is as long as the raw text takes as many bytes
  refine Nat.lt_of_not_le fun hle => ?_
  obtain ⟨more, rfl⟩ : rawText name allowCode turn.rest <+: part :=
    List.prefix_of_prefix_length_le ⟨rest, hrest.symm⟩ ⟨u, hpart.symm⟩ hle
  rw [Text.byteLength_append] at hlength
  omega

section

variable (hturn : turn ∈ turns source) (hs : turn.builder.stack = frame :: outer)
  (hisRaw : Builder.isRaw frame.tag = true) (h : turn.builder.Guards source turn.offset)

include hs hisRaw in
theorem rawRun_eq : turn.builder.rawRun turn.rest =
    rawText frame.tag.name (!frame.tag.runatServer) turn.rest := by
  simp [Builder.rawRun, hs, hisRaw]

include hturn hs hisRaw h

/-- In an element with raw text the text up to its end becomes a literal. -/
theorem guards_of_raw (hraw : turn.builder.rawRun turn.rest ≠ []) :
    ((turn.builder.note turn.remarks.reverse).perform turn.effect).Guards source turn.place.span.stop := by
  have hrun := rawRun_eq hs hisRaw
  have hreading := h.reading frame (by simp [hs]) hisRaw
  have hplace := place_of_raw hraw
  have hstands := place_standsIn hturn
  rw [effect_of_raw hraw]
  rw [hplace] at hstands ⊢
  refine (h.note _).push hs rfl ⟨hreading.literal hstands hraw ?_ fun hrunat => ?_, fun hrunat => .inr ?_⟩
  · intro offset hfrom hto
    rw [hrun] at hto
    exact not_closesAt_of_raw hturn hfrom hto
  · refine (hreading.whole hrunat).resolve_right fun hnil => hraw ?_
    rw [hrun, hrunat]
    exact hnil _ (dropBytes?_offset hturn)
  · intro t ht
    obtain ⟨-, front, hfront, hoffset⟩ := Builder.rest_of_mem_turns hturn
    obtain ⟨rest, hrest, hend, -⟩ := rawText_spec frame.tag.name (!frame.tag.runatServer) turn.rest
    rw [← hrun] at hrest
    have hsource : source = (front ++ turn.builder.rawRun turn.rest) ++ rest := by
      rw [List.append_assoc, ← hrest, hfront]
    have hdrop := Text.dropBytes?_append (front ++ turn.builder.rawRun turn.rest) rest
    rw [← hsource, Text.byteLength_append, ← Nat.zero_add front.byteLength, ← hoffset] at hdrop
    obtain rfl : rest = t := Option.some.inj (hdrop.symm.trans ht)
    simpa [hrunat] using rawText_eq_nil_iff.2 hend

/-- Where the raw text of an element ends, a block is read, or the closing tag of the element. -/
theorem guards_of_end (hraw : turn.builder.rawRun turn.rest = []) :
    ((turn.builder.note turn.remarks.reverse).perform turn.effect).Guards source turn.place.span.stop := by
  have hreading := h.reading frame (by simp [hs]) hisRaw
  have hne := (Builder.rest_of_mem_turns hturn).1
  have hends := (rawText_eq_nil_iff.1 (rawRun_eq hs hisRaw ▸ hraw)).resolve_left hne
  rcases endsRaw_iff.1 hends with ⟨hallowed, body, hbody⟩ | ⟨written, htoken, hsame⟩
  · have hplain : frame.tag.runatServer = false := by simpa using hallowed
    have hblock : turn.token.startsBlock = true := by
      rw [token, ← hbody]
      exact Lexeme.startsBlock_scanBlock body
    have hparent : turn.builder.parent? = some frame.tag := by simp [Builder.parent?, hs]
    obtain ⟨hplace, heffect⟩ := of_startsBlock hraw hblock
    have hat : Lexeme.at? source turn.offset = some ⟨turn.token, turn.place.text⟩ := by
      rw [at?_offset hturn, hplace]
      rfl
    have hgrown := hreading.block hturn hparent hplain hblock hat
    have hwhole : ∀ {P : Prop}, frame.tag.runatServer = true → P := by simp [hplain]
    rcases heffect with he | ⟨node, he, hnode⟩
    · rw [he]
      refine ⟨h.around, h.ended, ?_⟩
      intro top htop _
      have htop : top ∈ turn.builder.stack.head? := htop
      rw [hs] at htop
      cases htop
      exact ⟨by simpa using hgrown [] (by simp), hwhole⟩
    · rw [he]
      exact (h.note _).push hs hnode ⟨hgrown [node] (by simpa using hnode), hwhole⟩
  · have hclosing : turn.effect = .close written turn.lexeme := by
      have hcloses : turn.builder.closes written = true := by
        simp [Builder.closes, hs, Text.same_comm frame.tag.name, hsame]
      rw [effect_eq hraw, show turn.token = .closeTag written from htoken, Builder.effect, Builder.closing,
        if_pos hcloses]
    have hname : frame.tag.name.same written = true := by rwa [Text.same_comm]
    rw [hclosing, Builder.perform, Builder.closeThrough_of_cons (by exact hs), if_pos hname]
    have hat : Lexeme.at? source turn.offset = some ⟨.closeTag written, turn.lexeme.text⟩ :=
      (at?_offset hturn).trans (congrArg (some <| Lexeme.mk · turn.lexeme.text) htoken)
    have hended : EndsRaw source frame.tag frame.children.reverse (.closed turn.lexeme) :=
      ⟨⟨written, hat, hsame⟩, hreading.toRawContent⟩
    exact .of_plain ((h.note _).leave hs hended) _

end

/-- Outside of raw text any lexeme is read, and an element with raw text may be entered. -/
theorem guards_of_plain (h : turn.builder.Plain source) :
    ((turn.builder.note turn.remarks.reverse).perform turn.effect).Guards source turn.place.span.stop := by
  have hnoted := h.note turn.remarks.reverse
  by_cases henter : ∃ tag, turn.effect = .enter tag ∧ Builder.isRaw tag = true
  · obtain ⟨tag, he, -⟩ := henter
    have hended := Builder.walk_enter (b := turn.builder.note turn.remarks.reverse) tag
    rw [he, stop_of_enter he, Builder.perform]
    refine ⟨fun frame hframe => hnoted.tags _ (List.mem_map_of_mem hframe), ?_, ?_⟩
    · rw [hended]
      intro event hevent
      rcases List.mem_append.1 hevent with hevent | hevent
      · exact hnoted.events event hevent
      · rw [List.mem_singleton.1 hevent]
        trivial
    · rintro _ ⟨⟩ -
      exact ⟨.opened source tag, fun _ => .inl rfl⟩
  · refine .of_plain (hnoted.perform (Builder.endsRaw_leave_of_plain source) _ ?_
      fun tag he => ⟨?_, trivial⟩) _
    · intro node hnode event hevent
      cases node with
      | element tag closing children =>
        obtain ⟨rfl, rfl⟩ := closing_of_add hnode
        rcases List.mem_cons.1 hevent with rfl | hevent
        · trivial
        · rw [List.mem_singleton.1 hevent]
          exact fun _ => rfl
      | _ =>
        rw [List.mem_singleton.1 hevent]
        trivial
    · exact Bool.eq_false_iff.2 fun hraw => henter ⟨tag, he, hraw⟩

theorem guards_step (hturn : turn ∈ turns source) (h : turn.builder.Guards source turn.offset) :
    ((turn.builder.note turn.remarks.reverse).perform turn.effect).Guards source turn.place.span.stop := by
  by_cases htop : ∀ frame ∈ turn.builder.stack.head?, Builder.isRaw frame.tag = false
  · exact guards_of_plain (h.plain htop)
  obtain ⟨frame, outer, hs, hisRaw⟩ : ∃ frame outer, turn.builder.stack = frame :: outer ∧
      Builder.isRaw frame.tag = true := by
    cases hs : turn.builder.stack with
    | nil => simp [hs] at htop
    | cons frame outer => exact ⟨frame, outer, rfl, by simpa [hs] using htop⟩
  by_cases hraw : turn.builder.rawRun turn.rest = []
  · exact guards_of_end hturn hs hisRaw h hraw
  · exact guards_of_raw hturn hs hisRaw h hraw

end Turn

/-- A page guards raw text up to its end. -/
theorem guards_parse (source : Text) :
    (Builder.empty.run 0 source).closeAll.Guards source source.byteLength := by
  refine parse_turns_induction (P := fun b offset => b.Guards source offset) ?_ ?_ ?_
  · refine ⟨by simp [Builder.empty], ?_, by simp [Builder.empty]⟩
    simp [Builder.walk, Builder.empty, Node.walkAll]
  · intro turn hturn h
    exact Turn.guards_step hturn h
  · intro b frame outer h hs
    rw [Builder.closeInner_eq hs]
    have hnoted := h.note (Builder.unclosedReports frame.tag)
    cases hisRaw : Builder.isRaw frame.tag with
    | true =>
      have hended : EndsRaw source frame.tag frame.children.reverse .endOfInput :=
        (h.reading frame (by simp [hs]) hisRaw).toRawContent
      exact .of_plain (hnoted.leave hs hended) _
    | false =>
      have hplain := hnoted.plain (by simpa [hs] using hisRaw)
      exact .of_plain (hplain.leave (Builder.endsRaw_leave_of_plain source) hs _) _

/-- Elements with raw text are isolated. A `script` or `style` closes itself and is empty, or has raw text
up to the first closing tag of its name that no block in it covers, or else up to the end of the page. -/
theorem parse_rawText (source : Text) {tag : Tag} {closing : Closing} {children : List Node}
    (h : .element tag closing children ∈ Node.withinAll (parse source).nodes)
    (hraw : Builder.isRaw tag = true) : EndsRaw source tag children closing :=
  (guards_parse source).ended _ (Node.leave_mem_walk h) hraw

/-- whether it is a script or style that a closing tag at the offset ends -/
def Node.isRawUpTo (offset : Nat) : Node → Bool
  | .element tag (.closed place) _ => Builder.isRaw tag && place.offset == offset
  | _ => false

theorem parse_rawText_script :
    let source := "<script>a<b <%= '</script>' %></style></SCRIPT ></div>".toList
    ∃ tag place children, .element tag (.closed place) children ∈ Node.withinAll (parse source).nodes ∧
      Builder.isRaw tag = true ∧ place.offset = 38 ∧ RawContent source tag children 38 := by
  intro source
  have hany : (Node.withinAll (parse source).nodes).any (Node.isRawUpTo 38) = true := by decide +kernel
  obtain ⟨node, hmem, hnode⟩ := List.any_eq_true.1 hany
  cases node with
  | element tag closing children =>
    cases closing with
    | closed place =>
      obtain ⟨hraw, hoffset⟩ := Bool.and_eq_true_iff.1 hnode
      have hoffset := eq_of_beq hoffset
      exact ⟨tag, place, children, hmem, hraw, hoffset, hoffset ▸ (parse_rawText source hmem hraw).2⟩
    | _ => cases hnode
  | _ => cases hnode

end ServerPages
