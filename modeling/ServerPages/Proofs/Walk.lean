import ServerPages.Markup.Tree

/-! A tree as a walk in document order: elements are entered and left, other nodes are passed. A tree
under construction is the same walk, broken off inside the elements that are still open. Every
operation of the builder only adds to the end of it, so whatever is read off a walk grows with it. -/

namespace ServerPages

/-- A step of a walk through a tree. -/
inductive Event where
  | enter (tag : Tag)
  /-- a node that is no element, inside the element `parent` -/
  | pass (parent : Option Tag) (node : Node)
  | leave (tag : Tag) (closing : Closing) (children : List Node)

def Closing.pieces : Closing → List Fragment
  | .closed place => [place]
  | _ => []

namespace Node

mutual

/-- The walk through a node that stands in the element `parent`. -/
def walk (parent : Option Tag) : Node → List Event
  | .element tag closing children =>
    .enter tag :: (walkAll (some tag) children ++ [.leave tag closing children])
  | .directive d => [.pass parent (.directive d)]
  | .literal place => [.pass parent (.literal place)]
  | .code kind body place => [.pass parent (.code kind body place)]
  | .binding expression encode place => [.pass parent (.binding expression encode place)]

def walkAll (parent : Option Tag) : List Node → List Event
  | [] => []
  | node :: nodes => walk parent node ++ walkAll parent nodes

end

mutual

def within : Node → List Node
  | .element tag closing children => withinAll children ++ [.element tag closing children]
  | .directive d => [.directive d]
  | .literal place => [.literal place]
  | .code kind body place => [.code kind body place]
  | .binding expression encode place => [.binding expression encode place]

def withinAll : List Node → List Node
  | [] => []
  | node :: nodes => within node ++ withinAll nodes

end

mutual

/-- The places a node is written at, in document order: of an element the opening tag, what its
children are written at and the closing tag, if it has one. -/
def pieces : Node → List Fragment
  | .element tag closing children => tag.opening :: (piecesAll children ++ closing.pieces)
  | .directive d => [d.place]
  | .literal place => [place]
  | .code _ _ place => [place]
  | .binding _ _ place => [place]

def piecesAll : List Node → List Fragment
  | [] => []
  | node :: nodes => pieces node ++ piecesAll nodes

end

theorem mem_within (node : Node) : node ∈ node.within := by
  cases node <;> simp [within]

@[simp] theorem walkAll_append (parent : Option Tag) (as bs : List Node) :
    walkAll parent (as ++ bs) = walkAll parent as ++ walkAll parent bs := by
  induction as with
  | nil => simp [walkAll]
  | cons a as ih => simp only [List.cons_append, walkAll, ih, List.append_assoc]

end Node

namespace Event

/-- the node that a walk has seen all of; elements are left, not passed -/
def node? : Event → Option Node
  | .enter _ | .pass _ (.element _ _ _) => none
  | .pass _ node => some node
  | .leave tag closing children => some (.element tag closing children)

def pieces : Event → List Fragment
  | .enter tag => [tag.opening]
  | .pass _ node => node.pieces
  | .leave _ closing _ => closing.pieces

end Event

namespace Node

mutual

theorem within_eq_walk (parent : Option Tag) (node : Node) :
    node.within = (node.walk parent).filterMap Event.node? := by
  cases node with
  | element tag closing children =>
    simp [within, walk, List.filterMap_cons, Event.node?, withinAll_eq_walk (some tag) children]
  | _ => simp [within, walk, Event.node?]

theorem withinAll_eq_walk (parent : Option Tag) (nodes : List Node) :
    withinAll nodes = (walkAll parent nodes).filterMap Event.node? := by
  cases nodes with
  | nil => simp [withinAll, walkAll]
  | cons node nodes =>
    simp [withinAll, walkAll, within_eq_walk parent node, withinAll_eq_walk parent nodes]

end

mutual

theorem pieces_eq_walk (parent : Option Tag) (node : Node) :
    node.pieces = (node.walk parent).flatMap Event.pieces := by
  cases node with
  | element tag closing children =>
    simp [pieces, walk, Event.pieces, piecesAll_eq_walk (some tag) children]
  | _ => simp [pieces, walk, Event.pieces]

theorem piecesAll_eq_walk (parent : Option Tag) (nodes : List Node) :
    piecesAll nodes = (walkAll parent nodes).flatMap Event.pieces := by
  cases nodes with
  | nil => simp [piecesAll, walkAll]
  | cons node nodes =>
    simp [piecesAll, walkAll, pieces_eq_walk parent node, piecesAll_eq_walk parent nodes]

end

mutual

/-- The walk through an element is part of the walk through the tree it is in. -/
theorem walk_element_subset (parent : Option Tag) (node : Node) {tag : Tag} {closing : Closing}
    {children : List Node} (h : .element tag closing children ∈ node.within) :
    .enter tag :: (walkAll (some tag) children ++ [.leave tag closing children]) ⊆
      node.walk parent := by
  cases node with
  | element outer how inner =>
    rw [within, List.mem_append] at h
    rw [walk]
    rcases h with h | h
    · intro event hevent
      refine List.mem_cons_of_mem _ (List.mem_append_left _ ?_)
      exact walkAll_element_subset (some outer) inner h hevent
    · cases List.mem_singleton.1 h
      exact List.Subset.refl _
  | _ => simp [within] at h

theorem walkAll_element_subset (parent : Option Tag) (nodes : List Node) {tag : Tag} {closing : Closing}
    {children : List Node} (h : .element tag closing children ∈ withinAll nodes) :
    .enter tag :: (walkAll (some tag) children ++ [.leave tag closing children]) ⊆
      walkAll parent nodes := by
  cases nodes with
  | nil => simp [withinAll] at h
  | cons node nodes =>
    rw [withinAll, List.mem_append] at h
    rw [walkAll]
    rcases h with h | h
    · exact List.Subset.trans (walk_element_subset parent node h) (List.subset_append_left _ _)
    · exact List.Subset.trans (walkAll_element_subset parent nodes h) (List.subset_append_right _ _)

end

end Node

/-- The walk into an open element and through the children it has so far. -/
def Frame.walk (frame : Frame) : List Event :=
  .enter frame.tag :: Node.walkAll (some frame.tag) frame.children.reverse

namespace Builder

variable {b : Builder} {frame : Frame} {outer : List Frame}

def parent? (b : Builder) : Option Tag := b.stack.head?.map (·.tag)

def walk (b : Builder) : List Event :=
  Node.walkAll none b.top.reverse ++ b.stack.reverse.flatMap Frame.walk

def note (b : Builder) (reports : List Problem) : Builder :=
  { b with problems := reports ++ b.problems }

@[simp] theorem note_stack (reports : List Problem) : (b.note reports).stack = b.stack := rfl
@[simp] theorem note_problems (reports : List Problem) :
    (b.note reports).problems = reports ++ b.problems := rfl
@[simp] theorem note_walk (reports : List Problem) : (b.note reports).walk = b.walk := rfl
@[simp] theorem note_parent? (reports : List Problem) : (b.note reports).parent? = b.parent? := rfl

theorem note_note (reports earlier : List Problem) :
    (b.note earlier).note reports = b.note (reports ++ earlier) := by
  simp [note]

@[simp] theorem push_problems (node : Node) : (b.push node).problems = b.problems := by
  unfold push
  split <;> rfl

theorem walk_of_stack (h : b.stack = frame :: outer) :
    b.walk = { b with stack := outer }.walk ++ frame.walk := by
  simp [walk, h]

theorem walk_push (node : Node) : (b.push node).walk = b.walk ++ node.walk b.parent? := by
  cases hs : b.stack with
  | nil => simp [push, walk, hs, parent?, Node.walkAll_append, Node.walkAll]
  | cons frame outer =>
    simp [push, walk, hs, parent?, Frame.walk, Node.walkAll_append, Node.walkAll]

theorem walk_enter (tag : Tag) :
    { b with stack := ⟨tag, []⟩ :: b.stack : Builder }.walk = b.walk ++ [.enter tag] := by
  simp [walk, Frame.walk, Node.walkAll]

def leave (b : Builder) (frame : Frame) (outer : List Frame) (closing : Closing) : Builder :=
  { b with stack := outer }.push (.element frame.tag closing frame.children.reverse)

theorem walk_leave (h : b.stack = frame :: outer) (closing : Closing) :
    (b.leave frame outer closing).walk =
      b.walk ++ [.leave frame.tag closing frame.children.reverse] := by
  rw [leave, walk_push, walk_of_stack h, Node.walk, Frame.walk]
  simp

/-- The problem of a server element that is not closed by a tag of its own. -/
def unclosedReports (tag : Tag) : List Problem :=
  if tag.isServer then [⟨.unclosedTag tag.name, tag.opening.span⟩] else []

theorem closeInner_eq (h : b.stack = frame :: outer) (closing : Closing) :
    b.closeInner closing = (b.note (unclosedReports frame.tag)).leave frame outer closing := by
  simp only [closeInner, h, unclosedReports]
  split <;> rfl

theorem walk_closeInner (h : b.stack = frame :: outer) (closing : Closing) :
    (b.closeInner closing).walk = b.walk ++ [.leave frame.tag closing frame.children.reverse] := by
  rw [closeInner_eq h]
  exact walk_leave (b := b.note (unclosedReports frame.tag)) h closing

theorem problems_closeInner (h : b.stack = frame :: outer) (closing : Closing) :
    (b.closeInner closing).problems = unclosedReports frame.tag ++ b.problems := by
  rw [closeInner_eq h, leave, push_problems]
  rfl

theorem closeThrough_of_nil {name : Text} {place : Fragment} (hs : b.stack = []) :
    b.closeThrough name place = b := by
  obtain ⟨stack, top, problems⟩ := b
  cases hs
  rw [closeThrough]

theorem closeThrough_of_cons {name : Text} {place : Fragment} (hs : b.stack = frame :: outer) :
    b.closeThrough name place =
      if frame.tag.name.same name then b.leave frame outer (.closed place)
      else (b.closeInner .unclosed).closeThrough name place := by
  obtain ⟨stack, top, problems⟩ := b
  cases hs
  rw [closeThrough]
  rfl

/-- To close elements through the one named `name`: elements of other names close first, one by one,
then that one does. -/
theorem closeThrough_induction {P : Builder → Prop} {Q : Builder → Prop} {name : Text}
    {place : Fragment}
    (inner : ∀ b frame outer, P b → b.stack = frame :: outer → frame.tag.name.same name = false →
      P (b.closeInner .unclosed))
    (last : ∀ b frame outer, P b → b.stack = frame :: outer → frame.tag.name.same name = true →
      Q (b.leave frame outer (.closed place)))
    {b : Builder} (h : P b) (hany : b.stack.any (·.tag.name.same name) = true) :
    Q (b.closeThrough name place) := by
  fun_induction closeThrough b name place with
  | case1 b hs => simp [hs] at hany
  | case2 b frame outer hs hname => exact last b frame outer h hs hname
  | case3 b frame outer hs hname ih =>
    have hname : frame.tag.name.same name = false := by simpa using hname
    refine ih (inner b frame outer h hs hname) ?_
    rw [hs, List.any_cons, hname, Bool.false_or] at hany
    rw [closeInner_eq hs, leave, push]
    cases houter : outer with
    | nil => simp [houter] at hany
    | cons next rest => simpa [houter] using hany

theorem length_stack_closeInner (h : b.stack = frame :: outer) (closing : Closing) :
    (b.closeInner closing).stack.length = outer.length := by
  rw [closeInner_eq h, leave, push]
  cases outer <;> rfl

/-- At the end of the page the open elements close one by one, and none is left. -/
theorem closeAll_induction {P : Builder → Prop}
    (inner : ∀ b frame outer, P b → b.stack = frame :: outer → P (b.closeInner .endOfInput))
    (h : P b) : P b.closeAll ∧ b.closeAll.stack = [] := by
  have run : ∀ (frames : List Frame) (b : Builder), P b → b.stack.length = frames.length →
      P (frames.foldl (fun b _ => b.closeInner .endOfInput) b) ∧
        (frames.foldl (fun b _ => b.closeInner .endOfInput) b).stack = [] := by
    intro frames
    induction frames with
    | nil => intro b hb hlen; exact ⟨hb, List.eq_nil_of_length_eq_zero hlen⟩
    | cons _ frames ih =>
      intro b hb hlen
      obtain ⟨frame, outer, hs⟩ := List.exists_cons_of_length_eq_add_one hlen
      refine ih _ (inner b frame outer hb hs) ?_
      rw [length_stack_closeInner hs]
      simpa [hs] using hlen
  exact run b.stack b h rfl

end Builder

end ServerPages
