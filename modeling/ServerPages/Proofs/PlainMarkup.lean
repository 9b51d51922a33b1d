import ServerPages.Proofs.Kept
import ServerPages.Proofs.Siblings

/-! A page of plain markup passes through. Each of its nodes gives one literal, however deep it is
nested, with what the node says and from where it starts to where it ends; literals that follow each
other merge. So the page is one literal, from the first byte that is kept to the last. -/

namespace ServerPages

/-- The fragments stand one after another, whatever is between them. -/
def InOrder (fs : List Fragment) : Prop := fs.Pairwise fun p q => p.span.stop ≤ q.span.start

namespace Node

def isPlain : Node → Bool
  | .literal _ => true
  | .element tag _ _ => !tag.isServer
  | _ => false

theorem exists_first (node : Node) :
    ∃ first rest, node.pieces = first :: rest ∧ first.span.start = node.start := by
  cases node <;> exact ⟨_, _, by rw [pieces], rfl⟩

theorem start_le_stop (node : Node) : node.start ≤ node.stop := by
  cases node with
  | element tag closing children =>
    have : tag.opening.offset ≤ tag.opening.span.stop := Nat.le_add_right _ _
    cases closing <;> simp only [start, stop] <;> omega
  | _ => simp [start, stop, Fragment.span]

theorem lastStop_cons_cons (node next : Node) (nodes : List Node) :
    lastStop (node :: next :: nodes) = lastStop (next :: nodes) := by
  rw [lastStop]
  simp

theorem le_lastStop {nodes : List Node} {a : Nat} (hne : nodes ≠ [])
    (ha : ∀ piece ∈ piecesAll nodes, a ≤ piece.span.start) : a ≤ lastStop nodes := by
  induction nodes with
  | nil => exact absurd rfl hne
  | cons node nodes ih =>
    cases nodes with
    | nil =>
      obtain ⟨first, rest, hfirst, hstart⟩ := node.exists_first
      have hle := ha first (by simp [piecesAll, hfirst])
      have := node.start_le_stop
      rw [lastStop]
      omega
    | cons next nodes =>
      rw [lastStop_cons_cons]
      refine ih (by simp) fun piece hpiece => ha piece ?_
      rw [piecesAll]
      exact List.mem_append_right _ hpiece

theorem getLastD_stop {nodes : List Node} (hne : nodes ≠ []) (default : Nat) :
    (nodes.map stop).getLastD default = lastStop nodes := by
  induction nodes generalizing default with
  | nil => exact absurd rfl hne
  | cons node nodes ih =>
    cases nodes with
    | nil => simp [lastStop]
    | cons next nodes =>
      rw [List.map_cons, List.getLastD_cons, ih (by simp), lastStop_cons_cons]

variable {tag : Tag} {closing : Closing} {children : List Node}

/-- An element ends with its closing tag, which is not before its opening tag. -/
theorem stop_closed {place : Fragment}
    (h : InOrder (Node.element tag (.closed place) children).pieces) :
    (Node.element tag (.closed place) children).stop = place.span.stop := by
  rw [InOrder, pieces, List.pairwise_cons] at h
  have hplace := h.1 place (by simp [Closing.pieces])
  have : place.span.start ≤ place.span.stop := Nat.le_add_right _ _
  rw [stop]
  omega

/-- Without one it ends with the last of its children, or else with its opening tag. -/
theorem stop_not_closed (hclosing : closing.pieces = [])
    (h : InOrder (Node.element tag closing children).pieces) :
    (Node.element tag closing children).stop =
      (children.map stop).getLastD tag.opening.span.stop := by
  have hstop : (Node.element tag closing children).stop =
      max tag.opening.span.stop (lastStop children) := by
    cases closing with
    | closed place => cases hclosing
    | _ => simp only [stop]
  rw [InOrder, pieces, List.pairwise_cons, hclosing, List.append_nil] at h
  by_cases hchildren : children = []
  · rw [hstop, hchildren]
    simp [lastStop]
  · have hle := le_lastStop hchildren h.1
    rw [hstop, getLastD_stop hchildren]
    omega

mutual

/-- The last place that a node is written at ends where it ends, if its places stand in order. -/
theorem exists_last (node : Node) (h : InOrder node.pieces) :
    ∃ front last, node.pieces = front ++ [last] ∧ node.stop = last.span.stop := by
  cases node with
  | element tag closing children =>
    cases closing with
    | closed place =>
      exact ⟨tag.opening :: piecesAll children, place, by simp [pieces, Closing.pieces], stop_closed h⟩
    | _ =>
      rw [stop_not_closed rfl h]
      simp only [InOrder, pieces, List.pairwise_cons, Closing.pieces, List.append_nil] at h ⊢
      by_cases hchildren : children = []
      · exact ⟨[], tag.opening, by simp [hchildren, piecesAll], by simp [hchildren]⟩
      · obtain ⟨front, last, hpieces, hstop⟩ := exists_lastAll children hchildren h.2
        exact ⟨tag.opening :: front, last, by rw [hpieces, List.cons_append],
          by rw [getLastD_stop hchildren, hstop]⟩
  | _ => exact ⟨[], _, by rw [pieces]; rfl, by rw [stop]⟩

theorem exists_lastAll (nodes : List Node) (hne : nodes ≠ []) (h : InOrder (piecesAll nodes)) :
    ∃ front last, piecesAll nodes = front ++ [last] ∧ lastStop nodes = last.span.stop := by
  match nodes with
  | [] => exact absurd rfl hne
  | [node] =>
    simp only [piecesAll, List.append_nil] at h ⊢
    rw [lastStop]
    exact exists_last node h
  | node :: next :: nodes =>
    rw [InOrder, piecesAll, List.pairwise_append] at h
    obtain ⟨front, last, hpieces, hstop⟩ := exists_lastAll (next :: nodes) (by simp) h.2.1
    refine ⟨node.pieces ++ front, last, ?_, ?_⟩
    · rw [piecesAll, hpieces, List.append_assoc]
    · rw [lastStop_cons_cons, hstop]

end

def part (node : Node) : Text × Span := (node.text, node.span)

theorem flatMap_part (nodes : List Node) : (nodes.map part).flatMap Prod.fst = textAll nodes := by
  induction nodes with
  | nil => simp [textAll]
  | cons node nodes ih => simp [textAll, ih, part]

end Node

namespace Site

variable {site : Site} {tag : Tag} {closing : Closing} {children : List Node}

def literalAt (site : Site) (part : Text × Span) : Control := .literal part.1 (site.locate part.2)

def closingParts (tag : Tag) (closing : Closing) (stop : Nat) : List (Text × Span) :=
  match closing with
  | .closed place => [(place.text, place.span)]
  | .endOfInput => [(tag.closer, Span.empty stop)]
  | _ => []

theorem closingLiteral_eq (stop : Nat) :
    site.closingLiteral tag closing stop = (closingParts tag closing stop).map site.literalAt := by
  cases closing <;> rfl

theorem flatMap_closingParts (stop : Nat) :
    (closingParts tag closing stop).flatMap Prod.fst = closing.text tag := by
  cases closing <;> simp [closingParts, Closing.text]

theorem flat_literalAt (parts : List (Text × Span)) :
    (parts.map site.literalAt).flatMap Control.flat = parts.map site.literalAt := by
  induction parts with
  | nil => rfl
  | cons part parts ih => rw [List.map_cons, List.flatMap_cons, ih]; rfl

theorem addAll_literalAt (text : Text) (span : Span) (parts : List (Text × Span)) :
    Listing.addAll ⟨false, [site.literalAt (text, span)], none⟩ (parts.map site.literalAt) =
      ⟨false, [site.literalAt (text ++ parts.flatMap Prod.fst,
        ⟨span.start, (parts.map (·.2.stop)).getLastD span.stop⟩)], none⟩ := by
  induction parts generalizing text span with
  | nil => simp [Listing.addAll]
  | cons part parts ih =>
    have hadd : Listing.add ⟨false, [site.literalAt (text, span)], none⟩ (site.literalAt part) =
        ⟨false, [site.literalAt (text ++ part.1, ⟨span.start, part.2.stop⟩)], none⟩ := by
      simp [literalAt, Listing.add, Listing.addLiteral, Location.combine, locate, LineIndex.locate]
    rw [List.map_cons, Listing.addAll, hadd, ih, List.flatMap_cons, List.append_assoc, List.map_cons,
      List.getLastD_cons]

theorem gather_literalAt {controls : List Control} {part : Text × Span} {parts : List (Text × Span)}
    (h : controls.flatMap Control.flat = (part :: parts).map site.literalAt) :
    gather false controls = ([site.literalAt (part.1 ++ parts.flatMap Prod.fst,
      ⟨part.2.start, (parts.map (·.2.stop)).getLastD part.2.stop⟩)], {}) := by
  have hall : (Listing.empty false).addAll controls = ⟨false, [site.literalAt
      (part.1 ++ parts.flatMap Prod.fst,
        ⟨part.2.start, (parts.map (·.2.stop)).getLastD part.2.stop⟩)], none⟩ := by
    rw [← Listing.addAll_flat, h, List.map_cons, Listing.addAll, ← addAll_literalAt]
    rfl
  rw [gather, hall]
  rfl

/-- The last literal of plain markup ends where the element does. -/
theorem getLastD_stop_element (h : InOrder (Node.element tag closing children).pieces) :
    ((children.map Node.part ++ closingParts tag closing (Node.element tag closing children).stop).map
      (·.2.stop)).getLastD tag.opening.span.stop = (Node.element tag closing children).stop := by
  have hstops : (children.map Node.part).map (·.2.stop) = children.map Node.stop := by
    rw [List.map_map]
    rfl
  rw [List.map_append, hstops]
  cases closing with
  | closed place =>
    rw [closingParts, List.map_singleton, List.getLastD_concat, Node.stop_closed h]
  | endOfInput => rw [closingParts, List.map_singleton, List.getLastD_concat, Span.empty]
  | _ =>
    simp only [closingParts, List.map_nil, List.append_nil]
    rw [Node.stop_not_closed rfl h]

theorem visit_markup (registered : UserControls) (h : tag.isServer = false) :
    site.visit registered (.element tag closing children) =
      let all := site.visitAll registered children
      let gathered := gather false (site.literal tag.opening :: all.1 ++
        site.closingLiteral tag closing (Node.element tag closing children).stop)
      (some (.root gathered.1), all.2 ++ gathered.2) := by
  rw [visit, h]
  rfl

mutual

/-- A node of plain markup gives one literal, and nothing is found in it. -/
theorem visit_plain (registered : UserControls) (node : Node)
    (hplain : ∀ d ∈ node.within, d.isPlain = true) (h : InOrder node.pieces) :
    ∃ c, site.visit registered node = (some c, {}) ∧ c.flat = [site.literalAt node.part] := by
  cases node with
  | literal place =>
    refine ⟨site.literal place, by rw [visit], ?_⟩
    simp [literal, Control.flat, literalAt, Node.part, Node.text, Node.span, Node.start, Node.stop,
      Fragment.span]
  | element tag closing children =>
    have htag : tag.isServer = false := by
      simpa [Node.isPlain] using hplain (.element tag closing children) (by simp [Node.within])
    have hlast := getLastD_stop_element h
    rw [InOrder, Node.pieces, List.pairwise_cons, List.pairwise_append] at h
    obtain ⟨hcontrols, hfound⟩ := visitAll_plain registered children
      (fun d hd => hplain d (by simp [Node.within, hd])) h.2.1
    -- the opening tag, what the children say and the closing tag are literals in a row
    have hflat : (site.literal tag.opening :: (site.visitAll registered children).1 ++
        site.closingLiteral tag closing (Node.element tag closing children).stop).flatMap
          Control.flat = ((tag.opening.text, tag.opening.span) :: (children.map Node.part ++
            closingParts tag closing (Node.element tag closing children).stop)).map
              site.literalAt := by
      rw [closingLiteral_eq, List.flatMap_append, List.flatMap_cons, hcontrols, flat_literalAt]
      simp [literal, literalAt, Control.flat]
    have hgather : gather false (site.literal tag.opening :: (site.visitAll registered children).1 ++
        site.closingLiteral tag closing (Node.element tag closing children).stop) =
        ([site.literalAt (Node.part (.element tag closing children))], {}) := by
      rw [gather_literalAt hflat, hlast, List.flatMap_append, Node.flatMap_part, flatMap_closingParts,
        Node.part, Node.text]
      rfl
    refine ⟨.root [site.literalAt (Node.part (.element tag closing children))], ?_, rfl⟩
    simp only [visit_markup registered htag, hgather, hfound]
    rfl
  | _ => simpa [Node.isPlain] using hplain _ (Node.mem_within _)

theorem visitAll_plain (registered : UserControls) (nodes : List Node)
    (hplain : ∀ d ∈ Node.withinAll nodes, d.isPlain = true)
    (h : InOrder (Node.piecesAll nodes)) :
    (site.visitAll registered nodes).1.flatMap Control.flat =
        (nodes.map Node.part).map site.literalAt ∧
      (site.visitAll registered nodes).2 = {} := by
  cases nodes with
  | nil => rw [visitAll]; simp
  | cons node nodes =>
    rw [InOrder, Node.piecesAll, List.pairwise_append] at h
    obtain ⟨c, hvisit, hflat⟩ := visit_plain registered node
      (fun d hd => hplain d (by simp [Node.withinAll, hd])) h.1
    obtain ⟨hcontrols, hfound⟩ := visitAll_plain registered nodes
      (fun d hd => hplain d (by simp [Node.withinAll, hd])) h.2.1
    have hall : site.visitAll registered (node :: nodes) =
        (c :: (site.visitAll registered nodes).1, (site.visitAll registered nodes).2) := by
      rw [visitAll, hvisit]
      rfl
    rw [hall, List.flatMap_cons, hflat, hcontrols]
    exact ⟨rfl, hfound⟩

end

theorem gather_plain {registered : UserControls} {node : Node} {nodes : List Node}
    (hplain : ∀ d ∈ Node.withinAll (node :: nodes), d.isPlain = true)
    (h : InOrder (Node.piecesAll (node :: nodes))) :
    (gather false (site.visitAll registered (node :: nodes)).1).1 =
      [site.literalAt (Node.textAll (node :: nodes), ⟨node.start, Node.lastStop (node :: nodes)⟩)] := by
  have hstop := Node.getLastD_stop (List.cons_ne_nil node nodes) 0
  rw [List.map_cons, List.getLastD_cons] at hstop
  rw [gather_literalAt (visitAll_plain registered _ hplain h).1, Node.flatMap_part, List.map_map,
    ← hstop, Node.textAll]
  rfl

end Site

namespace Page

/-- A page of plain markup has nothing but one literal, if anything is kept of it: its text is the page
without what is left out of the tree, and the closing tags of the elements still open, the innermost
first; its location is from the first byte that is kept to the last. -/
theorem read_plain_markup (path source : Text) (lookup : Lookup)
    (h : ∀ node ∈ Node.withinAll (parse source).nodes, node.isPlain = true) :
    ∃ page, read path source lookup = .ok page ∧
      page.templates = [] ∧ page.scripts = [] ∧ page.placeholders = [] ∧
      ((parse source).nodes = [] → page.root = []) ∧
      ((parse source).nodes ≠ [] → ∃ first last,
        IsLeast {offset | Kept source offset} first ∧
        IsGreatest {offset | Kept source offset} last ∧
        page.root = [.literal
          (Text.without (discarded source) 0 source ++ closers (openAtEnd source))
          ⟨path, (LineIndex.ofText source).position first,
            (LineIndex.ofText source).position (last + 1)⟩]) := by
  have horder : InOrder (Node.piecesAll (parse source).nodes) := pairwise_pieces_parse source
  have hfound : ((site path source lookup).visitAll .empty (parse source).nodes).2 = {} :=
    (Site.visitAll_plain .empty _ h horder).2
  refine ⟨_, read_eq_ok path source lookup, congrArg Findings.templates hfound,
    congrArg Findings.scripts hfound, congrArg Findings.placeholders hfound, ?_, ?_⟩
  · intro hnil
    show (Site.gather false ((site path source lookup).visitAll .empty (parse source).nodes).1).1 = []
    rw [hnil, Site.visitAll]
    rfl
  · intro hne
    obtain ⟨node, nodes, hnodes⟩ := List.exists_cons_of_ne_nil hne
    obtain ⟨first, rest, hfirst, hstart⟩ := node.exists_first
    obtain ⟨front, last, hlast, hstop⟩ := Node.exists_lastAll _ hne horder
    obtain ⟨final, hgreatest, hfinal⟩ := isGreatest_kept hlast
    have hleast : IsLeast {offset | Kept source offset} first.span.start :=
      isLeast_kept (by rw [hnodes, Node.piecesAll, hfirst, List.cons_append])
    refine ⟨first.span.start, final, hleast, hgreatest, ?_⟩
    have hroot : (ofSource path source lookup).root =
        [(site path source lookup).literalAt (Node.textAll (parse source).nodes,
          ⟨node.start, Node.lastStop (parse source).nodes⟩)] := by
      show (Site.gather false ((site path source lookup).visitAll .empty (parse source).nodes).1).1 = _
      rw [hnodes] at h horder ⊢
      exact Site.gather_plain h horder
    rw [hroot, text_parse, hstop, hfinal, hstart]
    rfl

/-- A comment and a closing tag without a match go, and an element that is open is closed. -/
theorem read_plain_markup_unclosed :
    ∃ page, read "p".toList "a<%-- x --%><b>c</asp:d>".toList (fun _ _ => none) = .ok page ∧
      page.root = [.literal "a<b>c</b>".toList ⟨"p".toList, ⟨1, 0⟩, ⟨1, 16⟩⟩] := by
  have hplain : ∀ node ∈ Node.withinAll (parse "a<%-- x --%><b>c</asp:d>".toList).nodes,
      node.isPlain = true := List.all_eq_true.1 (by decide +kernel)
  have hne : (parse "a<%-- x --%><b>c</asp:d>".toList).nodes ≠ [] :=
    List.isEmpty_eq_false_iff.1 (by decide +kernel)
  have hbound : ∀ offset < 24, Kept "a<%-- x --%><b>c</asp:d>".toList offset → offset ≤ 15 := by
    decide +kernel
  obtain ⟨page, hread, -, -, -, -, hroot⟩ :=
    read_plain_markup "p".toList "a<%-- x --%><b>c</asp:d>".toList (fun _ _ => none) hplain
  obtain ⟨first, last, hfirst, hlast, hroot⟩ := hroot hne
  have hzero : first = 0 := hfirst.unique ⟨by decide +kernel, fun _ _ => Nat.zero_le _⟩
  have hfinal : last = 15 := hlast.unique ⟨by decide +kernel, fun offset h => hbound offset h.1 h⟩
  refine ⟨page, hread, ?_⟩
  rw [hroot, hzero, hfinal]
  congr 2
  all_goals decide +kernel

end Page

end ServerPages
