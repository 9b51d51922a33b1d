import Mathlib.Data.List.Pairwise
import Mathlib.Order.Bounds.Basic
import ServerPages.Proofs.Tiling

/-! What is kept of a page. The lexemes that the builder leaves out can be deleted from the page
itself: what is left is what the tree says. Elements that are open at the end of the page get a
closing tag each, and as they end innermost first, these tags follow everything that was written. -/

namespace ServerPages

def Span.holds (s : Span) (offset : Nat) : Bool := s.start ≤ offset && offset < s.stop

/-- The text, which starts at `offset`, without the characters that stand in one of the spans. -/
def Text.without (spans : List Span) (offset : Nat) : Text → Text
  | [] => []
  | c :: t =>
    if spans.any (·.holds offset) then without spans (offset + c.utf8Size) t
    else c :: without spans (offset + c.utf8Size) t

/-- Where the lexemes of a page stand that are left out of its tree. -/
def discarded (source : Text) : List Span :=
  ((turns source).filter Turn.discards).map (·.place.span)

/-- The byte is one of the page, and of no lexeme that is left out. -/
def Kept (source : Text) (offset : Nat) : Prop :=
  offset < source.byteLength ∧ ∀ s ∈ discarded source, s.holds offset = false

instance (source : Text) (offset : Nat) : Decidable (Kept source offset) :=
  inferInstanceAs (Decidable (_ ∧ _))

def Tag.closer (tag : Tag) : Text := ['<', '/'] ++ tag.name ++ ['>']

/-- The closing tags of open elements, in the order of the elements. -/
def closers (stack : List Frame) : Text := stack.flatMap fun frame => frame.tag.closer

def openAtEnd (source : Text) : List Frame := (Builder.empty.run 0 source).stack

namespace Span

variable {s : Span} {offset : Nat}

theorem holds_iff : s.holds offset = true ↔ s.start ≤ offset ∧ offset < s.stop := by
  simp [holds]

def Apart (s r : Span) : Prop := s.stop ≤ r.start ∨ r.stop ≤ s.start

theorem Apart.not_holds {r : Span} (h : s.Apart r) (hs : s.holds offset = true) :
    r.holds offset = false := by
  rw [holds_iff] at hs
  rw [Bool.eq_false_iff, ne_eq, holds_iff]
  rcases h with h | h <;> omega

end Span

namespace Text

variable {spans : List Span}

theorem without_append (offset : Nat) (a b : Text) : without spans offset (a ++ b) =
    without spans offset a ++ without spans (offset + a.byteLength) b := by
  induction a generalizing offset with
  | nil => simp [without]
  | cons c a ih =>
    simp only [List.cons_append, without, ih, byteLength_cons, Nat.add_assoc]
    split <;> rfl

/-- Text that stands in a span goes. -/
theorem without_held {offset : Nat} {t : Text} {s : Span} (h : s ∈ spans)
    (hstart : s.start ≤ offset) (hstop : offset + t.byteLength ≤ s.stop) :
    without spans offset t = [] := by
  induction t generalizing offset with
  | nil => rfl
  | cons c t ih =>
    have hc := c.utf8Size_pos
    rw [byteLength_cons] at hstop
    have hholds : spans.any (·.holds offset) = true := by
      refine List.any_eq_true.2 ⟨s, h, ?_⟩
      rw [Span.holds_iff]
      omega
    rw [without, if_pos hholds]
    exact ih (by omega) (by omega)

/-- Text that stands apart from all spans stays. -/
theorem without_apart {f : Fragment} (h : ∀ s ∈ spans, f.span.Apart s) :
    without spans f.offset f.text = f.text := by
  obtain ⟨offset, t⟩ := f
  induction t generalizing offset with
  | nil => rfl
  | cons c t ih =>
    have hc := c.utf8Size_pos
    have hnone : ¬ spans.any (·.holds offset) = true := by
      rw [Bool.not_eq_true, List.any_eq_false]
      intro s hs
      rw [(h s hs).not_holds]
      · simp
      · rw [Span.holds_iff]
        simp only [Fragment.span, byteLength_cons]
        omega
    simp only [without, if_neg hnone]
    congr 1
    refine ih (offset + c.utf8Size) ?_
    intro s hs
    have := h s hs
    simp only [Span.Apart, Fragment.span, byteLength_cons] at this ⊢
    omega

end Text

namespace Turn

/-- Steps that read one piece after another: without what they discard, their text is what they keep. -/
theorem without_tiles {spans : List Span} {steps : List Turn} {a z : Nat}
    (htiles : Tiles a z (steps.map place))
    (hgone : ∀ turn ∈ steps, turn.discards = true → turn.place.span ∈ spans)
    (hkept : ∀ turn ∈ steps, turn.discards = false → ∀ s ∈ spans, turn.place.span.Apart s) :
    Text.without spans a (steps.flatMap (·.place.text)) =
      (steps.filter (!·.discards)).flatMap (·.place.text) := by
  induction steps generalizing a with
  | nil => rfl
  | cons turn steps ih =>
    obtain ⟨hoffset, hrest⟩ := htiles
    have hrest := ih hrest (fun t ht => hgone t (List.mem_cons_of_mem _ ht))
      (fun t ht => hkept t (List.mem_cons_of_mem _ ht))
    have hstop : a + turn.place.text.byteLength = turn.place.span.stop := by
      rw [← hoffset]
      rfl
    rw [List.flatMap_cons, Text.without_append, hstop, hrest, ← hoffset]
    -- a step is deleted as a whole or not at all
    cases hd : turn.discards with
    | true =>
      have hmem := hgone turn (List.mem_cons_self ..) hd
      have hnone : Text.without spans turn.place.offset turn.place.text = [] :=
        Text.without_held hmem (Nat.le_refl _) (Nat.le_refl _)
      rw [hnone, List.filter_cons_of_neg (by simp [hd]), List.nil_append]
    | false =>
      rw [Text.without_apart (hkept turn (List.mem_cons_self ..) hd),
        List.filter_cons_of_pos (by simp [hd]), List.flatMap_cons]

end Turn

theorem Builder.text_turns (b : Builder) (offset : Nat) (t : Text) :
    (b.turns offset t).flatMap (·.place.text) = t := by
  fun_induction turns b offset t with
  | case1 b offset => rfl
  | case2 b offset t ht next ih =>
    rw [List.flatMap_cons, ih]
    exact b.read_append_drop offset t

theorem apart_discarded {source : Text} {turn : Turn} (h : turn ∈ turns source)
    (hkept : turn.discards = false) : ∀ s ∈ discarded source, turn.place.span.Apart s := by
  intro s hs
  obtain ⟨other, hother, rfl⟩ := List.mem_map.1 hs
  obtain ⟨hmem, hd⟩ := List.mem_filter.1 hother
  have hpairwise := List.pairwise_map.1 (tiles_turns source).pairwise
  have hapart : (turns source).Pairwise fun a b => a.place.span.Apart b.place.span :=
    hpairwise.imp fun hab => .inl hab
  have : Std.Symm fun a b : Turn => a.place.span.Apart b.place.span := ⟨fun _ _ hab => Or.symm hab⟩
  refine hapart.forall h hmem ?_
  rintro rfl
  rw [hkept] at hd
  cases hd

/-- What the tree of a page is written at is the page without what is left out. -/
theorem text_pieces_parse (source : Text) :
    (Node.piecesAll (parse source).nodes).flatMap (·.text) =
      Text.without (discarded source) 0 source := by
  have hgone : ∀ turn ∈ turns source, turn.discards = true → turn.place.span ∈ discarded source :=
    fun turn h hd => List.mem_map.2 ⟨turn, List.mem_filter.2 ⟨h, hd⟩, rfl⟩
  have hwithout := Turn.without_tiles (tiles_turns source) hgone fun turn h hd => apart_discarded h hd
  rw [turns, Builder.text_turns] at hwithout
  rw [hwithout, pieces_parse, List.flatMap_map]
  rfl

theorem Tiles.exists_holds {a z offset : Nat} {fs : List Fragment} (h : Tiles a z fs)
    (ha : a ≤ offset) (hz : offset < z) : ∃ f ∈ fs, f.span.holds offset = true := by
  induction fs generalizing a with
  | nil =>
    have : a = z := h
    omega
  | cons f fs ih =>
    obtain ⟨hstart, hrest⟩ := h
    by_cases hf : offset < f.span.stop
    · refine ⟨f, List.mem_cons_self .., ?_⟩
      rw [Span.holds_iff]
      exact ⟨by simp only [Fragment.span]; omega, hf⟩
    · obtain ⟨g, hg, hholds⟩ := ih hrest (by omega)
      exact ⟨g, List.mem_cons_of_mem _ hg, hholds⟩

/-- The bytes that are kept are those of the pieces. -/
theorem kept_iff {source : Text} {offset : Nat} : Kept source offset ↔
    ∃ piece ∈ Node.piecesAll (parse source).nodes, piece.span.holds offset = true := by
  rw [pieces_parse]
  constructor
  · rintro ⟨hlt, hfree⟩
    obtain ⟨f, hf, hholds⟩ := (tiles_turns source).exists_holds (Nat.zero_le _) hlt
    obtain ⟨turn, hturn, rfl⟩ := List.mem_map.1 hf
    refine ⟨turn.place, List.mem_map.2 ⟨turn, List.mem_filter.2 ⟨hturn, ?_⟩, rfl⟩, hholds⟩
    cases hd : turn.discards with
    | false => rfl
    | true =>
      have hmem : turn.place.span ∈ discarded source :=
        List.mem_map.2 ⟨turn, List.mem_filter.2 ⟨hturn, hd⟩, rfl⟩
      rw [hfree _ hmem] at hholds
      cases hholds
  · rintro ⟨piece, hpiece, hholds⟩
    obtain ⟨turn, hturn, rfl⟩ := List.mem_map.1 hpiece
    obtain ⟨hmem, hd⟩ := List.mem_filter.1 hturn
    refine ⟨?_, fun s hs => (apart_discarded hmem (by simpa using hd) s hs).not_holds hholds⟩
    have hstop := ((tiles_turns source).bounds _ (List.mem_map_of_mem hmem)).2
    rw [Span.holds_iff] at hholds
    omega

/-- The first piece starts with the first byte that is kept. -/
theorem isLeast_kept {source : Text} {first : Fragment} {rest : List Fragment}
    (h : Node.piecesAll (parse source).nodes = first :: rest) :
    IsLeast {offset | Kept source offset} first.span.start := by
  have hmem : first ∈ Node.piecesAll (parse source).nodes := by simp [h]
  have hlen := Text.byteLength_pos (text_ne_nil_of_mem_pieces hmem)
  have hstop : first.span.stop = first.span.start + first.text.byteLength := rfl
  have hpairwise := pairwise_pieces_parse source
  rw [h, List.pairwise_cons] at hpairwise
  constructor
  · exact kept_iff.2 ⟨first, hmem, Span.holds_iff.2 (by omega)⟩
  · intro offset hoffset
    obtain ⟨piece, hpiece, hholds⟩ := kept_iff.1 hoffset
    rw [Span.holds_iff] at hholds
    rw [h] at hpiece
    rcases List.mem_cons.1 hpiece with rfl | hpiece
    · exact hholds.1
    · have := hpairwise.1 piece hpiece
      omega

theorem isGreatest_kept {source : Text} {last : Fragment} {front : List Fragment}
    (h : Node.piecesAll (parse source).nodes = front ++ [last]) :
    ∃ final, IsGreatest {offset | Kept source offset} final ∧ last.span.stop = final + 1 := by
  have hmem : last ∈ Node.piecesAll (parse source).nodes := by simp [h]
  have hlen := Text.byteLength_pos (text_ne_nil_of_mem_pieces hmem)
  have hstop : last.span.stop = last.span.start + last.text.byteLength := rfl
  have hpairwise := pairwise_pieces_parse source
  rw [h, List.pairwise_append] at hpairwise
  refine ⟨last.span.stop - 1, ⟨?_, ?_⟩, by omega⟩
  · exact kept_iff.2 ⟨last, hmem, Span.holds_iff.2 (by omega)⟩
  · intro offset hoffset
    obtain ⟨piece, hpiece, hholds⟩ := kept_iff.1 hoffset
    rw [Span.holds_iff] at hholds
    rw [h] at hpiece
    rcases List.mem_append.1 hpiece with hpiece | hpiece
    · have := hpairwise.2.2 piece hpiece last (List.mem_singleton.2 rfl)
      omega
    · rw [List.mem_singleton.1 hpiece] at hholds
      omega

def Closing.text (tag : Tag) : Closing → Text
  | .closed place => place.text
  | .endOfInput => tag.closer
  | _ => []

namespace Node

mutual

def text : Node → Text
  | .element tag closing children => tag.opening.text ++ (textAll children ++ closing.text tag)
  | .directive d => d.place.text
  | .literal place => place.text
  | .code _ _ place => place.text
  | .binding _ _ place => place.text

def textAll : List Node → Text
  | [] => []
  | node :: nodes => text node ++ textAll nodes

end

end Node

namespace Event

def text : Event → Text
  | .enter tag => tag.opening.text
  | .pass _ node => node.text
  | .leave tag closing _ => closing.text tag

end Event

namespace Node

mutual

theorem text_eq_walk (parent : Option Tag) (node : Node) :
    node.text = (node.walk parent).flatMap Event.text := by
  cases node with
  | element tag closing children =>
    simp [text, walk, Event.text, textAll_eq_walk (some tag) children]
  | _ => simp [walk, Event.text]

theorem textAll_eq_walk (parent : Option Tag) (nodes : List Node) :
    textAll nodes = (walkAll parent nodes).flatMap Event.text := by
  cases nodes with
  | nil => simp [textAll, walkAll]
  | cons node nodes =>
    simp [textAll, walkAll, text_eq_walk parent node, textAll_eq_walk parent nodes]

end

theorem IsSingle.text {node : Node} {place : Fragment} (h : node.IsSingle place) :
    node.text = place.text := by
  cases node with
  | element tag closing children =>
    obtain ⟨rfl, rfl, rfl⟩ := h
    simp [Node.text, textAll, Closing.text]
  | _ => cases h; simp [Node.text]

end Node

namespace Builder

variable {b b' : Builder} {frame : Frame} {outer : List Frame} {offset : Nat} {t read : Text}

def told (b : Builder) : Text := b.walk.flatMap Event.text

theorem told_leave (h : b.stack = frame :: outer) (closing : Closing) :
    (b.leave frame outer closing).told = b.told ++ closing.text frame.tag := by
  simp [told, walk_leave h, Event.text]

theorem told_closeInner (h : b.stack = frame :: outer) (closing : Closing) :
    (b.closeInner closing).told = b.told ++ closing.text frame.tag := by
  simp [told, walk_closeInner h, Event.text]

/-- The tree says what it is written at. -/
def Literal (b : Builder) : Prop := b.told = b.pieces.flatMap (·.text)

theorem Notes.literal (h : b.Notes b') (hb : b.Literal) : b'.Literal := by
  obtain ⟨reports, _, rfl⟩ := h
  exact hb

theorem Move.literal (m : Move b offset t b' read) (h : b.Literal) : b'.Literal := by
  cases m with
  | @add node reports _ _ single _ =>
    have hwalk : (b.note reports).walk.flatMap Event.text =
      ((b.note reports).walk.flatMap Event.pieces).flatMap (·.text) := h
    rw [Literal, told, Builder.pieces, walk_push, List.flatMap_append, List.flatMap_append,
      ← Node.text_eq_walk, ← Node.pieces_eq_walk, List.flatMap_append, single.text, single.pieces,
      hwalk]
    simp
  | enter _ noted _ =>
    have h := noted.literal h
    rw [Literal, told, Builder.pieces, walk_enter, List.flatMap_append, List.flatMap_append,
      List.flatMap_append, ← told, ← Builder.pieces, h]
    simp [Event.text, Event.pieces]
  | close _ noted _ isOpen =>
    refine closeThrough_induction (P := Literal) (Q := Literal) ?_ ?_ (noted.literal h) isOpen
    · intro c frame outer hc hs _
      rw [Literal, told_closeInner hs, pieces_closeInner hs, hc]
      simp [Closing.text, Closing.pieces]
    · intro c frame outer hc hs _
      rw [Literal, told_leave hs, pieces_leave hs, hc]
      simp [Closing.text, Closing.pieces]
  | discard _ noted _ => exact noted.literal h

theorem closers_closeInner (h : b.stack = frame :: outer) (closing : Closing) :
    closers (b.closeInner closing).stack = closers outer := by
  rw [closeInner_eq h, leave, push]
  cases outer <;> rfl

/-- The elements that are still open close one by one, the innermost first. -/
theorem told_closeAll (b : Builder) :
    Node.textAll b.closeAll.top.reverse = b.told ++ closers b.stack := by
  -- what is told and the tags still to come stay the same together
  have inner : ∀ (c : Builder) (frame : Frame) (outer : List Frame),
      c.told ++ closers c.stack = b.told ++ closers b.stack → c.stack = frame :: outer →
      (c.closeInner .endOfInput).told ++ closers (c.closeInner .endOfInput).stack =
        b.told ++ closers b.stack := by
    intro c frame outer hc hs
    rw [told_closeInner hs, closers_closeInner hs, ← hc, hs]
    simp [closers, Closing.text]
  obtain ⟨htold, hstack⟩ := closeAll_induction inner rfl
  rw [← htold, hstack, told, walk, hstack, Node.textAll_eq_walk none]
  simp [closers]

end Builder

/-- The tree of a page says what is kept of the page, and then closes what is still open. -/
theorem text_parse (source : Text) : Node.textAll (parse source).nodes =
    Text.without (discarded source) 0 source ++ closers (openAtEnd source) := by
  have hliteral : (Builder.empty.run 0 source).Literal :=
    Builder.run_induction (fun _ _ _ _ _ _ h m => m.literal h) ⟨[], rfl, rfl⟩ rfl
  rw [← text_pieces_parse, parse, Builder.told_closeAll, hliteral, Builder.pieces_closeAll]
  rfl

end ServerPages
