import ServerPages.Proofs.Step

/-! No byte of a page is lost, repeated or moved. Every step of the builder either adds the text it
reads to the end of what the tree is written at, or reads a whole lexeme and leaves it out. So the
pieces of the tree stand in the page in order, and the gaps between them are filled by lexemes that
were left out: comments, and what was reported as unterminated or as a closing tag without a match. -/

namespace ServerPages

/-- The fragments follow each other from `start` to `stop`. -/
def Tiles (start stop : Nat) : List Fragment → Prop
  | [] => start = stop
  | f :: fs => f.offset = start ∧ Tiles f.span.stop stop fs

/-- What is between fragments that stand in order from `start` to `stop`, before the first and after
the last. -/
def gaps (start stop : Nat) : List Fragment → List Span
  | [] => [⟨start, stop⟩]
  | f :: fs => ⟨start, f.offset⟩ :: gaps f.span.stop stop fs

theorem Tiles.append {a m z : Nat} {fs gs : List Fragment} (hf : Tiles a m fs) (hg : Tiles m z gs) :
    Tiles a z (fs ++ gs) := by
  induction fs generalizing a with
  | nil => cases hf; exact hg
  | cons f fs ih => exact ⟨hf.1, ih hf.2⟩

theorem Tiles.start_le {a z : Nat} {fs : List Fragment} (h : Tiles a z fs) : a ≤ z := by
  induction fs generalizing a with
  | nil => exact Nat.le_of_eq h
  | cons f fs ih =>
    have := ih h.2
    have := h.1
    simp only [Fragment.span] at *
    omega

theorem Tiles.bounds {a z : Nat} {fs : List Fragment} (h : Tiles a z fs) :
    ∀ f ∈ fs, a ≤ f.span.start ∧ f.span.stop ≤ z := by
  induction fs generalizing a with
  | nil => simp
  | cons f fs ih =>
    intro g hg
    have hstart : f.span.start = a := h.1
    have hstop : f.span.start ≤ f.span.stop := Nat.le_add_right _ _
    rcases List.mem_cons.1 hg with rfl | hg
    · exact ⟨by omega, h.2.start_le⟩
    · have := ih h.2 g hg
      omega

theorem Tiles.pairwise {a z : Nat} {fs : List Fragment} (h : Tiles a z fs) :
    fs.Pairwise fun f g => f.span.stop ≤ g.span.start := by
  induction fs generalizing a with
  | nil => exact .nil
  | cons f fs ih => exact .cons (fun g hg => (h.2.bounds g hg).1) (ih h.2)

/-- A moment in the building of a tree: the tree so far, and the text still to be read. -/
structure Turn where
  builder : Builder
  offset : Nat
  rest : Text

namespace Turn

def place (turn : Turn) : Fragment := ⟨turn.offset, (turn.builder.step turn.offset turn.rest).2⟩

def discards (turn : Turn) : Bool := turn.builder.discards turn.rest

/-- The step reads a whole lexeme of the page and leaves it out of the tree: a comment, or what is
reported where it stands as unterminated or as a closing tag, with a colon in its name, that has the
name of no open element. -/
def LeavesOut (turn : Turn) (source : Text) (problems : List Problem) : Prop :=
  ∃ token, Lexeme.at? source turn.offset = some ⟨token, turn.place.text⟩ ∧
    match token with
    | .comment => True
    | .unterminatedComment => ⟨.unterminatedComment, turn.place.span⟩ ∈ problems
    | .unterminatedDirective => ⟨.unterminatedDirective, turn.place.span⟩ ∈ problems
    | .closeTag name | .runatOnClosingTag name =>
      ':' ∈ name ∧ (∀ frame ∈ turn.builder.stack, frame.tag.name.same name = false) ∧
        ⟨.unexpectedClosingTag name, turn.place.span⟩ ∈ problems
    | _ => False

end Turn

namespace Builder

/-- The moments from `offset` to the end of `t`, one before each step. -/
def turns (b : Builder) (offset : Nat) (t : Text) : List Turn :=
  if _h : t = [] then []
  else
    let next := b.step offset t
    ⟨b, offset, t⟩ :: turns next.1 (offset + next.2.byteLength) (t.drop next.2.length)
termination_by t.length
decreasing_by
  have := List.length_pos_iff.2 (read_step_ne_nil b offset ‹_›)
  have := List.length_pos_iff.2 ‹¬ t = []›
  simp only [List.length_drop]
  omega

def pieces (b : Builder) : List Fragment := b.walk.flatMap Event.pieces

end Builder

def turns (source : Text) : List Turn := Builder.empty.turns 0 source

theorem Node.IsSingle.pieces {node : Node} {place : Fragment} (h : node.IsSingle place) :
    node.pieces = [place] := by
  cases node with
  | element tag closing children =>
    obtain ⟨rfl, rfl, rfl⟩ := h
    simp [Node.pieces, piecesAll, Closing.pieces]
  | _ => cases h; simp [Node.pieces]

namespace Builder

variable {b b' : Builder} {offset : Nat} {t read : Text}

theorem Notes.pieces (h : b.Notes b') : b'.pieces = b.pieces := by
  obtain ⟨reports, _, rfl⟩ := h
  rfl

theorem pieces_leave {frame : Frame} {outer : List Frame} (h : b.stack = frame :: outer)
    (closing : Closing) : (b.leave frame outer closing).pieces = b.pieces ++ closing.pieces := by
  simp [pieces, walk_leave h, Event.pieces]

theorem pieces_closeInner {frame : Frame} {outer : List Frame} (h : b.stack = frame :: outer)
    (closing : Closing) : (b.closeInner closing).pieces = b.pieces ++ closing.pieces := by
  simp [pieces, walk_closeInner h, Event.pieces]

/-- Every step adds what it reads, unless it discards it. -/
theorem Move.pieces (h : Move b offset t b' read) :
    b'.pieces = b.pieces ++ if b.discards t then [] else [⟨offset, read⟩] := by
  cases h with
  | @add node reports _ kept single _ =>
    rw [Builder.pieces, walk_push, List.flatMap_append, ← Node.pieces_eq_walk, single.pieces, kept]
    rfl
  | @enter b' tag kept noted start =>
    rw [Builder.pieces, walk_enter, List.flatMap_append, kept, ← noted.pieces, ← start]
    simp [Builder.pieces, Event.pieces]
  | @close b' name kept noted _ isOpen =>
    rw [kept, ← noted.pieces]
    refine closeThrough_induction (P := fun c => c.pieces = b'.pieces)
      (Q := fun c => c.pieces = b'.pieces ++ [⟨offset, (Lexeme.scan t).text⟩]) ?_ ?_ rfl isOpen
    · intro c frame outer hc hs _
      simp [pieces_closeInner hs, hc, Closing.pieces]
    · intro c frame outer hc hs _
      rw [pieces_leave hs, hc, Closing.pieces]
  | discard dropped noted _ => simp [dropped, noted.pieces]

theorem Notes.problems_suffix (h : b.Notes b') : b.problems <:+ b'.problems := by
  obtain ⟨reports, _, rfl⟩ := h
  exact List.suffix_append _ _

theorem Move.problems_suffix (h : Move b offset t b' read) : b.problems <:+ b'.problems := by
  cases h with
  | add _ _ _ =>
    rw [push_problems]
    exact List.suffix_append _ _
  | enter _ noted _ => exact noted.problems_suffix
  | @close b' name _ noted _ isOpen =>
    refine closeThrough_induction (P := fun c => b.problems <:+ c.problems)
      (Q := fun c => b.problems <:+ c.problems) ?_ ?_ noted.problems_suffix isOpen
    · intro c frame outer hc hs _
      rw [problems_closeInner hs]
      exact hc.trans (List.suffix_append _ _)
    · intro c frame outer hc _ _
      rwa [leave, push_problems]
  | discard _ noted _ => exact noted.problems_suffix

/-- A step that discards reads a whole lexeme and reports it. -/
theorem Move.discarded (h : Move b offset t b' read) (hd : b.discards t = true) :
    read = (Lexeme.scan t).text ∧ ∀ defect ∈ (Lexeme.scan t).token.omission?,
      ⟨defect, Fragment.span ⟨offset, read⟩⟩ ∈ b'.problems := by
  cases h with
  | discard _ _ reported => exact ⟨rfl, reported⟩
  | add kept _ _ => simp [kept] at hd
  | enter kept _ _ => simp [kept] at hd
  | close kept _ _ _ => simp [kept] at hd

theorem problems_run_suffix (b : Builder) (offset : Nat) (t : Text) :
    b.problems <:+ (b.run offset t).problems := by
  fun_induction run b offset t with
  | case1 b offset => exact List.suffix_refl _
  | case2 b offset t ht next ih => exact (step_move b offset ht).problems_suffix.trans ih

/-- What is read from `offset` to the end is added to the pieces, less what is discarded. -/
theorem pieces_run (b : Builder) (offset : Nat) (t : Text) :
    (b.run offset t).pieces =
      b.pieces ++ ((b.turns offset t).filter (!·.discards)).map Turn.place := by
  fun_induction turns b offset t with
  | case1 b offset => rw [run]; simp
  | case2 b offset t ht next ih =>
    rw [run, dif_neg ht]
    simp only [next] at ih
    rw [ih, (step_move b offset ht).pieces, List.append_assoc, List.filter_cons]
    cases hd : b.discards t <;> simp [Turn.discards, Turn.place, hd, next]

theorem tiles_turns (b : Builder) (offset : Nat) (t : Text) :
    Tiles offset (offset + t.byteLength) ((b.turns offset t).map Turn.place) := by
  fun_induction turns b offset t with
  | case1 b offset => simp [Tiles]
  | case2 b offset t ht next ih =>
    have hlen : next.2.byteLength + Text.byteLength (t.drop next.2.length) = t.byteLength := by
      rw [← Text.byteLength_append, b.read_append_drop offset t]
    refine ⟨rfl, ?_⟩
    rwa [Nat.add_assoc, hlen] at ih

/-- Every step stands in front of a rest of the page. -/
theorem rest_of_mem_turns {turn : Turn} (h : turn ∈ b.turns offset t) :
    turn.rest ≠ [] ∧ ∃ front, t = front ++ turn.rest ∧ turn.offset = offset + front.byteLength := by
  fun_induction turns b offset t with
  | case1 b offset => simp at h
  | case2 b offset t ht next ih =>
    rcases List.mem_cons.1 h with rfl | h
    · exact ⟨ht, [], rfl, rfl⟩
    · obtain ⟨hne, front, hfront, hoffset⟩ := ih h
      refine ⟨hne, next.2 ++ front, ?_, ?_⟩
      · rw [List.append_assoc, ← hfront, b.read_append_drop offset t]
      · rw [hoffset, Text.byteLength_append, Nat.add_assoc]

/-- The rest of a page is read from any moment on. -/
theorem run_of_mem_turns {turn : Turn} (h : turn ∈ b.turns offset t) :
    b.run offset t = turn.builder.run turn.offset turn.rest := by
  fun_induction turns b offset t with
  | case1 b offset => simp at h
  | case2 b offset t ht next ih =>
    rcases List.mem_cons.1 h with rfl | h
    · rfl
    · rw [← ih h, run, dif_neg ht]

theorem problems_of_mem_turns {turn : Turn} (h : turn ∈ b.turns offset t) :
    (turn.builder.step turn.offset turn.rest).1.problems <:+ (b.run offset t).problems := by
  fun_induction turns b offset t with
  | case1 b offset => simp at h
  | case2 b offset t ht next ih =>
    rw [run, dif_neg ht]
    rcases List.mem_cons.1 h with rfl | h
    · exact problems_run_suffix _ _ _
    · exact ih h

theorem problems_closeAll_suffix (b : Builder) : b.problems <:+ b.closeAll.problems := by
  refine (closeAll_induction (P := fun c => b.problems <:+ c.problems) ?_ (List.suffix_refl _)).1
  intro c frame outer hc hs
  rw [problems_closeInner hs]
  exact hc.trans (List.suffix_append _ _)

theorem pieces_closeAll (b : Builder) : Node.piecesAll b.closeAll.top.reverse = b.pieces := by
  obtain ⟨hpieces, hstack⟩ := closeAll_induction (P := fun c => c.pieces = b.pieces)
    (fun c frame outer hc hs => by simp [pieces_closeInner hs, hc, Closing.pieces]) rfl
  rw [← hpieces, pieces, walk, hstack, Node.piecesAll_eq_walk none]
  simp

end Builder

/-- What the tree of a page is written at is what the steps read and keep. -/
theorem pieces_parse (source : Text) :
    Node.piecesAll (parse source).nodes =
      ((turns source).filter (!·.discards)).map Turn.place := by
  rw [parse, Builder.pieces_closeAll, Builder.pieces_run]
  simp [Builder.pieces, Builder.empty, Builder.walk, Node.walkAll, turns]

namespace Turn

variable {source : Text} {turn : Turn}

theorem place_standsIn (h : turn ∈ turns source) : turn.place.StandsIn source := by
  obtain ⟨_, front, hfront, hoffset⟩ := Builder.rest_of_mem_turns h
  refine ⟨front, turn.rest.drop turn.place.text.length, ?_, by simpa [place] using hoffset⟩
  rw [place, turn.builder.read_append_drop, ← hfront]

theorem place_text_ne_nil (h : turn ∈ turns source) : turn.place.text ≠ [] :=
  Builder.read_step_ne_nil _ _ (Builder.rest_of_mem_turns h).1

theorem dropBytes?_offset (h : turn ∈ turns source) :
    source.dropBytes? turn.offset = some turn.rest := by
  obtain ⟨-, front, rfl, hoffset⟩ := Builder.rest_of_mem_turns h
  rw [hoffset, Nat.zero_add, Text.dropBytes?_append]

theorem at?_offset (h : turn ∈ turns source) :
    Lexeme.at? source turn.offset = some (Lexeme.scan turn.rest) := by
  rw [Lexeme.at?, dropBytes?_offset h, Option.map_some]

theorem leavesOut (h : turn ∈ turns source) (hd : turn.discards = true) :
    turn.LeavesOut source (parse source).problems := by
  have hmove := Builder.step_move turn.builder turn.offset (Builder.rest_of_mem_turns h).1
  obtain ⟨hread, hreported⟩ := hmove.discarded hd
  have hknown : ∀ defect ∈ (Lexeme.scan turn.rest).token.omission?,
      ⟨defect, turn.place.span⟩ ∈ (parse source).problems := by
    intro defect hdefect
    rw [parse, List.mem_reverse]
    exact ((Builder.problems_of_mem_turns h).trans
      (Builder.problems_closeAll_suffix _)).subset (hreported defect hdefect)
  refine ⟨(Lexeme.scan turn.rest).token, ?_, ?_⟩
  · rw [at?_offset h, place, hread]
  · simp only [discards, Builder.discards] at hd
    cases htoken : (Lexeme.scan turn.rest).token <;>
      simp_all [Token.omission?]

/-- Where steps read one piece after another, discarded ones fill the gaps between the others;
`before` are those since the last piece that was kept. -/
theorem tiles_gaps {before steps : List Turn} {a m z : Nat}
    (hbefore : ∀ turn ∈ before, turn.discards = true) (htiles : Tiles a m (before.map place))
    (hsteps : Tiles m z (steps.map place)) :
    ∀ gap ∈ gaps a z ((steps.filter (!·.discards)).map place), ∃ dropped : List Turn,
      Tiles gap.start gap.stop (dropped.map place) ∧
        ∀ turn ∈ dropped, turn ∈ before ++ steps ∧ turn.discards = true := by
  induction steps generalizing before a m with
  | nil =>
    intro gap hgap
    cases hsteps
    rw [List.mem_singleton.1 hgap]
    exact ⟨before, htiles, fun turn h => ⟨by simpa using h, hbefore turn h⟩⟩
  | cons turn steps ih =>
    obtain ⟨hoffset, hrest⟩ := hsteps
    have hoffset : turn.place.offset = m := hoffset
    intro gap hgap
    -- a discarded step belongs to the gap that is open; a kept one ends it and opens the next
    cases hd : turn.discards with
    | true =>
      have hmore : ∀ later ∈ before ++ [turn], later.discards = true := by
        intro later hlater
        rcases List.mem_append.1 hlater with h | h
        · exact hbefore later h
        · rw [List.mem_singleton.1 h, hd]
      have htiles' : Tiles a turn.place.span.stop ((before ++ [turn]).map place) := by
        rw [List.map_append]
        exact htiles.append ⟨hoffset, rfl⟩
      rw [List.filter_cons_of_neg (by simp [hd])] at hgap
      simpa using ih hmore htiles' hrest gap hgap
    | false =>
      rw [List.filter_cons_of_pos (by simp [hd]), List.map_cons, gaps, hoffset] at hgap
      rcases List.mem_cons.1 hgap with rfl | hgap
      · exact ⟨before, htiles, fun later h => ⟨List.mem_append_left _ h, hbefore later h⟩⟩
      · have hnone : ∀ later ∈ ([] : List Turn), later.discards = true := by simp
        obtain ⟨dropped, htile, hdropped⟩ := ih hnone rfl hrest gap hgap
        refine ⟨dropped, htile, fun later h => ⟨?_, (hdropped later h).2⟩⟩
        have := (hdropped later h).1
        simp_all

end Turn

theorem tiles_turns (source : Text) :
    Tiles 0 source.byteLength ((turns source).map Turn.place) := by
  simpa [turns] using Builder.empty.tiles_turns 0 source

theorem Node.mem_pieces_of_literal {nodes : List Node} {place : Fragment}
    (h : .literal place ∈ withinAll nodes) : place ∈ piecesAll nodes := by
  rw [withinAll_eq_walk none] at h
  obtain ⟨event, hevent, hnode⟩ := List.mem_filterMap.1 h
  rw [piecesAll_eq_walk none]
  refine List.mem_flatMap.2 ⟨event, hevent, ?_⟩
  cases event with
  | pass parent node => cases node <;> simp_all [Event.node?, Event.pieces, pieces]
  | _ => simp [Event.node?] at hnode

theorem text_ne_nil_of_mem_pieces {source : Text} {piece : Fragment}
    (h : piece ∈ Node.piecesAll (parse source).nodes) : piece.text ≠ [] := by
  rw [pieces_parse] at h
  obtain ⟨turn, hturn, rfl⟩ := List.mem_map.1 h
  exact turn.place_text_ne_nil (List.mem_filter.1 hturn).1

theorem standsIn_of_mem_pieces {source : Text} {piece : Fragment}
    (h : piece ∈ Node.piecesAll (parse source).nodes) : piece.StandsIn source := by
  rw [pieces_parse] at h
  obtain ⟨turn, hturn, rfl⟩ := List.mem_map.1 h
  exact turn.place_standsIn (List.mem_filter.1 hturn).1

theorem pairwise_pieces_parse (source : Text) :
    (Node.piecesAll (parse source).nodes).Pairwise fun p q => p.span.stop ≤ q.span.start := by
  rw [pieces_parse]
  exact (tiles_turns source).pairwise.sublist (List.filter_sublist.map _)

/-- The pieces of a page's tree are not empty, stand in the page in order and say what the page says
there; between them stand lexemes that were left out, each of them reported unless it is a comment. -/
theorem parse_tiles_source (source : Text) :
    (∀ piece ∈ Node.piecesAll (parse source).nodes,
      piece.span.start < piece.span.stop ∧ piece.span.stop ≤ source.byteLength ∧
        piece.span.text source = piece.text) ∧
    (Node.piecesAll (parse source).nodes).Pairwise (fun p q => p.span.stop ≤ q.span.start) ∧
    (∀ gap ∈ gaps 0 source.byteLength (Node.piecesAll (parse source).nodes),
      ∃ dropped : List Turn, Tiles gap.start gap.stop (dropped.map Turn.place) ∧
        ∀ turn ∈ dropped, turn ∈ turns source ∧ turn.LeavesOut source (parse source).problems) ∧
    (∀ place, .literal place ∈ Node.withinAll (parse source).nodes →
      place.text = place.span.text source) := by
  refine ⟨?_, pairwise_pieces_parse source, ?_, ?_⟩
  · intro piece h
    have hlen := Text.byteLength_pos (text_ne_nil_of_mem_pieces h)
    have hstands := standsIn_of_mem_pieces h
    exact ⟨by simp only [Fragment.span]; omega, hstands.stop_le, hstands.text_span⟩
  · rw [pieces_parse]
    intro gap hgap
    have hnone : ∀ turn ∈ ([] : List Turn), turn.discards = true := by simp
    obtain ⟨dropped, htiles, hdropped⟩ := Turn.tiles_gaps hnone rfl (tiles_turns source) gap hgap
    refine ⟨dropped, htiles, fun turn h => ?_⟩
    obtain ⟨hmem, hd⟩ := hdropped turn h
    exact ⟨by simpa using hmem, turn.leavesOut (by simpa using hmem) hd⟩
  · intro place h
    exact (standsIn_of_mem_pieces (Node.mem_pieces_of_literal h)).text_span.symm

end ServerPages
