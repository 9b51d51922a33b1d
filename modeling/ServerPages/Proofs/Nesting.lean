import ServerPages.Proofs.Step

/-! How elements end. Between two steps of the builder nothing that is finished lacks an end; while a
closing tag or the end of the page closes elements, only the node added last may. That is why an
element without a closing tag is the last in the element around it, which ends with it, and why a
closing tag ends the innermost element of its name. Each problem of nesting is reported when the walk
through the tree comes to it, so the problems are the walk's. -/

namespace ServerPages

namespace Text

theorem same_comm (a b : Text) : same a b = same b a := by
  simp [same, Bool.beq_comm]

theorem same_left {a b c : Text} (h : same a b = true) : same c a = same c b := by
  simp only [same, beq_iff_eq] at h ⊢
  rw [h]

end Text

namespace Node

def closing? : Node → Option Closing
  | .element _ closing _ => some closing
  | _ => none

/-- an element that neither ends by itself nor by a closing tag of its own -/
def isUnended (node : Node) : Bool :=
  node.closing? == some .unclosed || node.closing? == some .endOfInput

mutual

/-- the tag of an unclosed element, and those of the unclosed elements at its end -/
def unclosedChain : Node → List Tag
  | .element tag .unclosed children => tag :: lastUnclosed children
  | _ => []

/-- The tags of unclosed elements down from the last of some nodes, each the last in the one before. -/
def lastUnclosed : List Node → List Tag
  | [] => []
  | [node] => unclosedChain node
  | _ :: nodes => lastUnclosed nodes

end

/-- Elements without an end stand last: an unclosed one in an element that is itself unclosed or
closed by a tag, one open at the end of the page in another such or at the top level. -/
def Orderly (parent : Option Closing) (nodes : List Node) : Prop :=
  ∀ before node after, nodes = before ++ node :: after →
    (node.closing? = some .unclosed → after = [] ∧
      (parent = some .unclosed ∨ ∃ place, parent = some (.closed place))) ∧
    (node.closing? = some .endOfInput → after = [] ∧
      (parent = none ∨ parent = some .endOfInput))

theorem lastUnclosed_concat (nodes : List Node) (node : Node) :
    lastUnclosed (nodes ++ [node]) = unclosedChain node := by
  induction nodes with
  | nil => simp [lastUnclosed]
  | cons first nodes ih =>
    cases nodes with
    | nil => simp [lastUnclosed]
    | cons second nodes => simpa [lastUnclosed] using ih

theorem unclosedChain_eq_nil {node : Node} (h : node.isUnended = false) :
    node.unclosedChain = [] := by
  cases node with
  | element tag closing children =>
    cases closing <;> simp_all [unclosedChain, isUnended, closing?]
  | _ => simp [unclosedChain]

/-- All have an end, but for the latest, which ends as `closing` says if it has none. -/
def SettledBut (closing : Closing) (latest : List Node) : Prop :=
  (∀ node ∈ latest.tail, node.isUnended = false) ∧
    ∀ node ∈ latest.head?, node.isUnended = true → node.closing? = some closing

theorem SettledBut.of_settled {closing : Closing} {latest : List Node}
    (h : ∀ node ∈ latest, node.isUnended = false) : SettledBut closing latest := by
  refine ⟨fun node hn => h node (List.mem_of_mem_tail hn), fun node hn hu => ?_⟩
  simp [h node (List.mem_of_head? hn)] at hu

theorem SettledBut.orderly {closing : Closing} {parent : Option Closing} {latest : List Node}
    (h : SettledBut closing latest)
    (hunclosed : closing = .unclosed → parent = some .unclosed ∨ ∃ place, parent = some (.closed place))
    (hend : closing = .endOfInput → parent = none ∨ parent = some .endOfInput) :
    Orderly parent latest.reverse := by
  intro before node after heq
  have hlatest : latest = after.reverse ++ node :: before.reverse := by
    rw [← List.reverse_reverse latest, heq]
    simp
  cases hafter : after.reverse with
  | cons last more =>
    have hnode : node.isUnended = false := by
      refine h.1 node ?_
      rw [hlatest, hafter]
      simp
    constructor <;> intro hc <;> simp [isUnended, hc] at hnode
  | nil =>
    have hnil : after = [] := List.reverse_eq_nil_iff.1 hafter
    have hnode : node.isUnended = true → node.closing? = some closing := by
      refine h.2 node ?_
      rw [hlatest, hafter]
      rfl
    constructor <;> intro hc
    · have hclosing := hnode (by simp [isUnended, hc])
      rw [hc] at hclosing
      exact ⟨hnil, hunclosed (Option.some.inj hclosing).symm⟩
    · have hclosing := hnode (by simp [isUnended, hc])
      rw [hc] at hclosing
      exact ⟨hnil, hend (Option.some.inj hclosing).symm⟩

theorem IsSingle.isUnended {node : Node} {place : Fragment} (h : node.IsSingle place) :
    node.isUnended = false := by
  cases node with
  | element tag closing children =>
    obtain ⟨_, rfl, _⟩ := h
    rfl
  | _ => rfl

end Node

/-- The element ends in the page as its closing says: a closing tag has its name, which no unclosed
element at its end has, and its children are orderly. -/
structure EndsWell (source : Text) (tag : Tag) (closing : Closing) (children : List Node) : Prop where
  named : ∀ place, closing = .closed place → ∃ token name,
    Lexeme.at? source place.offset = some ⟨token, place.text⟩ ∧ token.closingName? = some name ∧
      name.same tag.name = true ∧
      ∀ inner ∈ Node.lastUnclosed children, inner.name.same tag.name = false
  orderly : Node.Orderly (some closing) children

def Event.EndsWell (source : Text) : Event → Prop
  | .leave tag closing children => ServerPages.EndsWell source tag closing children
  | _ => True

namespace Builder

variable {source : Text} {b b' : Builder} {frame : Frame} {outer : List Frame}

/-- Elements have ended well so far, and the problems of nesting are those of the walk. -/
structure Sound (source : Text) (b : Builder) : Prop where
  ended : ∀ e ∈ b.walk, e.EndsWell source
  nesting : b.problems.reverse.filter (·.defect.isNesting) = b.walk.filterMap Event.report?

theorem Sound.note (h : b.Sound source) (hnotes : b.Notes b') : b'.Sound source := by
  obtain ⟨reports, hq, rfl⟩ := hnotes
  refine ⟨h.ended, ?_⟩
  rw [note_problems, List.reverse_append, List.filter_append, h.nesting, hq.filter_reverse]
  exact List.append_nil _

theorem Sound.leave (h : b.Sound source) (hs : b.stack = frame :: outer) {place : Fragment}
    (hends : ServerPages.EndsWell source frame.tag (.closed place) frame.children.reverse) :
    (b.leave frame outer (.closed place)).Sound source := by
  refine ⟨?_, ?_⟩
  · rw [walk_leave hs]
    intro e he
    rcases List.mem_append.1 he with he | he
    · exact h.ended e he
    · rw [List.mem_singleton.1 he]
      exact hends
  · rw [walk_leave hs, Builder.leave, push_problems, List.filterMap_append, ← h.nesting]
    simp [Event.report?]

theorem Sound.closeInner (h : b.Sound source) (hs : b.stack = frame :: outer) {closing : Closing}
    (hclosing : closing = .unclosed ∨ closing = .endOfInput)
    (hends : ServerPages.EndsWell source frame.tag closing frame.children.reverse) :
    (b.closeInner closing).Sound source := by
  refine ⟨?_, ?_⟩
  · rw [walk_closeInner hs]
    intro e he
    rcases List.mem_append.1 he with he | he
    · exact h.ended e he
    · rw [List.mem_singleton.1 he]
      exact hends
  · rw [walk_closeInner hs, problems_closeInner hs, List.reverse_append, List.filter_append,
      List.filterMap_append, h.nesting]
    congr 1
    rcases hclosing with rfl | rfl
    all_goals
      unfold unclosedReports
      split <;> simp_all [Event.report?, Defect.isNesting]

/-- The nodes of the innermost open element, of the element around it, and so on to the top level,
the latest of each first. -/
def levels (b : Builder) : List (List Node) := b.stack.map (·.children) ++ [b.top]

theorem levels_push (b : Builder) (node : Node) :
    ∃ level levels, b.levels = level :: levels ∧ (b.push node).levels = (node :: level) :: levels := by
  unfold levels push
  cases b.stack with
  | nil => exact ⟨b.top, [], rfl, rfl⟩
  | cons frame outer => exact ⟨frame.children, _, rfl, rfl⟩

def Settled (b : Builder) : Prop := ∀ level ∈ b.levels, ∀ node ∈ level, node.isUnended = false

/-- Every finished node has an end but for the latest one, which may end as `closing` says and whose
chain of unclosed elements satisfies `P`. -/
def Ending (closing : Closing) (P : Tag → Prop) (b : Builder) : Prop :=
  ∃ level levels, b.levels = level :: levels ∧ Node.SettledBut closing level ∧
    (∀ tag ∈ Node.lastUnclosed level.reverse, P tag) ∧
    ∀ level ∈ levels, ∀ node ∈ level, node.isUnended = false

theorem Settled.push (h : b.Settled) {node : Node} (hnode : node.isUnended = false) :
    (b.push node).Settled := by
  obtain ⟨level, levels, hlevels, hpush⟩ := b.levels_push node
  rw [Settled, hlevels] at h
  rw [Settled, hpush]
  intro level' hlevel node' hmem
  rcases List.mem_cons.1 hlevel with rfl | hlevel
  · rcases List.mem_cons.1 hmem with rfl | hmem
    · exact hnode
    · exact h level (List.mem_cons_self ..) node' hmem
  · exact h level' (List.mem_cons_of_mem _ hlevel) node' hmem

theorem Settled.ending (h : b.Settled) (closing : Closing) (P : Tag → Prop) :
    b.Ending closing P := by
  obtain ⟨level, levels, hlevels, -⟩ := b.levels_push (.literal ⟨0, []⟩)
  rw [Settled, hlevels] at h
  have hlevel := h level (List.mem_cons_self ..)
  refine ⟨level, levels, hlevels, .of_settled hlevel, ?_, fun l hl => h l (List.mem_cons_of_mem _ hl)⟩
  cases level with
  | nil => simp [Node.lastUnclosed]
  | cons node level =>
    rw [List.reverse_cons, Node.lastUnclosed_concat,
      Node.unclosedChain_eq_nil (hlevel node (List.mem_cons_self ..))]
    simp

theorem Ending.around {closing : Closing} {P : Tag → Prop} (h : b.Ending closing P)
    (hs : b.stack = frame :: outer) :
    Node.SettledBut closing frame.children ∧
      (∀ tag ∈ Node.lastUnclosed frame.children.reverse, P tag) ∧
      { b with stack := outer }.Settled := by
  obtain ⟨level, levels, hlevels, hlevel, hchain, hrest⟩ := h
  rw [Builder.levels, hs, List.map_cons, List.cons_append, List.cons.injEq] at hlevels
  obtain ⟨rfl, rfl⟩ := hlevels
  exact ⟨hlevel, hchain, hrest⟩

theorem Ending.closeInner {closing : Closing} {P : Tag → Prop} (h : b.Ending closing P)
    (hs : b.stack = frame :: outer) (htag : P frame.tag) : (b.closeInner closing).Ending closing P := by
  obtain ⟨_, hchain, haround⟩ := h.around hs
  rw [closeInner_eq hs]
  obtain ⟨level, levels, hlevels, hpush⟩ :=
    { b.note (unclosedReports frame.tag) with stack := outer }.levels_push
      (.element frame.tag closing frame.children.reverse)
  have hsettled : ∀ l ∈ level :: levels, ∀ node ∈ l, node.isUnended = false := by
    rw [← hlevels]
    exact haround
  refine ⟨_, levels, hpush, ⟨hsettled level (List.mem_cons_self ..), ?_⟩, ?_,
    fun l hl => hsettled l (List.mem_cons_of_mem _ hl)⟩
  · intro node hnode _
    cases hnode
    rfl
  · rw [List.reverse_cons, Node.lastUnclosed_concat]
    intro tag hmem
    cases closing with
    | unclosed =>
      rcases List.mem_cons.1 hmem with rfl | hmem
      · exact htag
      · exact hchain tag hmem
    | _ => simp [Node.unclosedChain] at hmem

theorem Notes.settled (hnotes : b.Notes b') (h : b.Settled) : b'.Settled := by
  obtain ⟨reports, _, rfl⟩ := hnotes
  exact h

theorem Ending.endsWell {closing : Closing} {P : Tag → Prop} (h : b.Ending closing P)
    (hs : b.stack = frame :: outer) (hclosing : closing = .unclosed ∨ closing = .endOfInput) :
    ServerPages.EndsWell source frame.tag closing frame.children.reverse := by
  refine ⟨?_, (h.around hs).1.orderly (fun he => .inl (by rw [he])) (fun he => .inr (by rw [he]))⟩
  rintro place rfl
  simp at hclosing

/-- The elements that a closing tag closes end well, and nothing is left without an end. -/
theorem sound_closeThrough {name : Text} {token : Token} {place : Fragment}
    (hat : Lexeme.at? source place.offset = some ⟨token, place.text⟩)
    (hname : token.closingName? = some name) (hsettled : b.Settled) (hsound : b.Sound source)
    (hopen : b.stack.any (·.tag.name.same name) = true) :
    (b.closeThrough name place).Settled ∧ (b.closeThrough name place).Sound source := by
  -- on the way only the node added last lacks an end, and no unclosed element down from it has the
  -- name in the closing tag; so the element that is left by it is the innermost of that name
  refine closeThrough_induction
    (P := fun c => c.Ending .unclosed (fun tag => tag.name.same name = false) ∧ c.Sound source)
    (Q := fun c => c.Settled ∧ c.Sound source) ?_ ?_ ⟨hsettled.ending _ _, hsound⟩ hopen
  · rintro c frame outer ⟨hending, hc⟩ hs htag
    exact ⟨hending.closeInner hs htag, hc.closeInner hs (.inl rfl) (hending.endsWell hs (.inl rfl))⟩
  · rintro c frame outer ⟨hending, hc⟩ hs htag
    obtain ⟨hlatest, hchain, haround⟩ := hending.around hs
    refine ⟨haround.push rfl, hc.leave hs ⟨?_, ?_⟩⟩
    · rintro _ ⟨⟩
      refine ⟨token, name, hat, hname, by rwa [Text.same_comm], ?_⟩
      intro inner hinner
      rw [Text.same_left htag]
      exact hchain inner hinner
    · exact hlatest.orderly (fun _ => .inr ⟨place, rfl⟩) (by simp)

theorem endsWell_of_isSingle {node : Node} {place : Fragment} (h : node.IsSingle place)
    (parent : Option Tag) : ∀ e ∈ node.walk parent, e.EndsWell source := by
  cases node with
  | element tag closing children =>
    obtain ⟨_, rfl, rfl⟩ := h
    have hends : ServerPages.EndsWell source tag .selfClosing [] :=
      ⟨by simp, by intro before node after he; simp at he⟩
    simpa [Node.walk, Node.walkAll, Event.EndsWell] using hends
  | _ => simp [Node.walk, Event.EndsWell]

/-- Every move keeps elements ending well. -/
theorem Move.sound {offset : Nat} {t read : Text}
    (hat : Lexeme.at? source offset = some (Lexeme.scan t)) (h : b.Settled ∧ b.Sound source)
    (m : Move b offset t b' read) : b'.Settled ∧ b'.Sound source := by
  obtain ⟨hsettled, hsound⟩ := h
  cases m with
  | @add node reports _ _ single nesting =>
    refine ⟨Settled.push (b := b.note reports) hsettled single.isUnended, ?_, ?_⟩
    · rw [walk_push]
      intro e he
      rcases List.mem_append.1 he with he | he
      · exact hsound.ended e he
      · exact endsWell_of_isSingle single _ e he
    · rw [walk_push, push_problems, note_problems, List.reverse_append, List.filter_append,
        List.filterMap_append, hsound.nesting, nesting]
      rfl
  | @enter b' tag _ noted _ =>
    have hsound' := hsound.note noted
    refine ⟨?_, ?_, ?_⟩
    · intro level hlevel
      rcases List.mem_cons.1 hlevel with rfl | hlevel
      · simp
      · exact noted.settled hsettled level hlevel
    · rw [walk_enter]
      simpa [Event.EndsWell, or_imp, forall_and] using hsound'.ended
    · rw [walk_enter, List.filterMap_append, ← hsound'.nesting]
      simp [Event.report?]
  | close _ noted closing isOpen =>
    have hat : Lexeme.at? source offset = some ⟨(Lexeme.scan t).token, (Lexeme.scan t).text⟩ := hat
    exact sound_closeThrough hat closing (noted.settled hsettled) (hsound.note noted) isOpen
  | discard _ noted _ => exact ⟨noted.settled hsettled, hsound.note noted⟩

end Builder

def Defect.isUnclosedTag : Defect → Bool
  | .unclosedTag _ => true
  | _ => false

def Defect.isNestedDirective : Defect → Bool
  | .nestedDirective _ _ => true
  | _ => false

namespace Node

def unendedTag? : Node → Option Tag
  | .element tag .unclosed _ | .element tag .endOfInput _ =>
    if tag.isServer then some tag else none
  | _ => none

mutual

/-- The directives in a node that stand inside an element, each with the element around it; the node
itself stands in `parent`. -/
def nested (parent : Option Tag) : Node → List (Tag × Directive)
  | .element tag _ children => nestedAll (some tag) children
  | .directive d => parent.toList.map fun tag => (tag, d)
  | .literal _ => []
  | .code _ _ _ => []
  | .binding _ _ _ => []

def nestedAll (parent : Option Tag) : List Node → List (Tag × Directive)
  | [] => []
  | node :: nodes => nested parent node ++ nestedAll parent nodes

end

end Node

def Event.nested? : Event → Option (Tag × Directive)
  | .pass (some parent) (.directive d) => some (parent, d)
  | _ => none

namespace Node

mutual

theorem nested_eq_walk (parent : Option Tag) (node : Node) :
    node.nested parent = (node.walk parent).filterMap Event.nested? := by
  cases node with
  | element tag closing children =>
    simp [nested, walk, List.filterMap_cons, Event.nested?, nestedAll_eq_walk (some tag) children]
  | directive d => cases parent <;> simp [nested, walk, Event.nested?]
  | _ => simp [nested, walk, Event.nested?]

theorem nestedAll_eq_walk (parent : Option Tag) (nodes : List Node) :
    nestedAll parent nodes = (walkAll parent nodes).filterMap Event.nested? := by
  cases nodes with
  | nil => simp [nestedAll, walkAll]
  | cons node nodes =>
    simp [nestedAll, walkAll, nested_eq_walk parent node, nestedAll_eq_walk parent nodes]

end

/-- Of the problems of nesting in a walk, the unclosed tags are those of server elements without an
end. -/
theorem unclosed_walkAll (parent : Option Tag) (nodes : List Node) :
    ((walkAll parent nodes).filterMap Event.report?).filter (·.defect.isUnclosedTag) =
      ((withinAll nodes).filterMap unendedTag?).map fun tag =>
        ⟨.unclosedTag tag.name, tag.opening.span⟩ := by
  rw [withinAll_eq_walk parent, List.filterMap_filterMap, List.map_filterMap, List.filter_filterMap]
  congr 1
  funext e
  cases e with
  | enter tag => rfl
  | pass parent node => cases parent <;> cases node <;> rfl
  | leave tag closing children =>
    cases hserver : tag.isServer <;> cases closing <;>
      simp [Event.report?, Event.node?, unendedTag?, Defect.isUnclosedTag, hserver]

theorem nested_walkAll (parent : Option Tag) (nodes : List Node) :
    ((walkAll parent nodes).filterMap Event.report?).filter (·.defect.isNestedDirective) =
      (nestedAll parent nodes).map fun (tag, d) =>
        ⟨.nestedDirective d.name tag.name, d.place.span⟩ := by
  rw [nestedAll_eq_walk, List.map_filterMap, List.filter_filterMap]
  congr 1
  funext e
  cases e with
  | enter tag => rfl
  | pass parent node => cases parent <;> cases node <;> rfl
  | leave tag closing children =>
    cases hserver : tag.isServer <;> cases closing <;>
      simp [Event.report?, Event.nested?, Defect.isNestedDirective, hserver]

end Node

/-- How elements of a page end: only a closing tag of their name closes them, and none of the unclosed
elements at their end has it; elements without an end stand last in an element that ends with them.
The unclosed tags reported are the server elements without an end, in the order in which they end, and
the misplaced directives reported are those inside elements, in document order. -/
theorem parse_nesting (source : Text) :
    (∀ tag closing children, .element tag closing children ∈ Node.withinAll (parse source).nodes →
      (∀ place, closing = .closed place → ∃ token name,
        Lexeme.at? source place.offset = some ⟨token, place.text⟩ ∧
          token.closingName? = some name ∧ name.same tag.name = true ∧
          ∀ inner ∈ Node.lastUnclosed children, inner.name.same tag.name = false) ∧
      Node.Orderly (some closing) children) ∧
    Node.Orderly none (parse source).nodes ∧
    (parse source).problems.filter (·.defect.isUnclosedTag) =
      ((Node.withinAll (parse source).nodes).filterMap Node.unendedTag?).map (fun tag =>
        ⟨.unclosedTag tag.name, tag.opening.span⟩) ∧
    (parse source).problems.filter (·.defect.isNestedDirective) =
      (Node.nestedAll none (parse source).nodes).map (fun (tag, d) =>
        ⟨.nestedDirective d.name tag.name, d.place.span⟩) := by
  obtain ⟨b, ⟨⟨level, levels, hlevels, hlatest, -⟩, hsound⟩, hstack, hparse⟩ :=
    Builder.parse_induction source (P := fun b => b.Settled ∧ b.Sound source)
      (Q := fun b => b.Ending .endOfInput (fun _ => True) ∧ b.Sound source)
      ⟨by simp [Builder.Settled, Builder.levels, Builder.empty],
        ⟨by simp [Builder.walk, Builder.empty, Node.walkAll],
          by simp [Builder.walk, Builder.empty, Node.walkAll]⟩⟩
      (fun _ _ _ _ _ hat h m => m.sound hat h)
      (fun _ h => ⟨h.1.ending _ _, h.2⟩)
      (fun _ _ _ h hs => ⟨h.1.closeInner hs trivial,
        h.2.closeInner hs (.inr rfl) (h.1.endsWell hs (.inr rfl))⟩)
  have hwalk : b.walk = Node.walkAll none (parse source).nodes := by
    simp [Builder.walk, hstack, hparse]
  have hnesting : (parse source).problems.filter (·.defect.isNesting) =
      (Node.walkAll none (parse source).nodes).filterMap Event.report? := by
    rw [← hwalk, ← hsound.nesting, hparse]
  refine ⟨?_, ?_, ?_, ?_⟩
  · intro tag closing children hmem
    rw [Node.withinAll_eq_walk none, ← hwalk] at hmem
    obtain ⟨e, he, hnode⟩ := List.mem_filterMap.1 hmem
    have hends := hsound.ended e he
    cases e with
    | leave =>
      cases hnode
      exact ⟨hends.named, hends.orderly⟩
    | pass parent node => cases node <;> simp [Event.node?] at hnode
    | enter => simp [Event.node?] at hnode
  · have htop : level = b.top := by
      simp [Builder.levels, hstack] at hlevels
      exact hlevels.1.symm
    rw [hparse, ← htop]
    exact hlatest.orderly (by simp) (fun _ => .inl rfl)
  · rw [← Node.unclosed_walkAll none, ← hnesting, List.filter_filter]
    congr 1
    funext p
    cases p.defect <;> rfl
  · rw [← Node.nested_walkAll none, ← hnesting, List.filter_filter]
    congr 1
    funext p
    cases p.defect <;> rfl

end ServerPages
