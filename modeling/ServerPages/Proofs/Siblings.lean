import Mathlib.Data.List.Chain
import ServerPages.Page.Parse
import ServerPages.Proofs.Tiling

/-! The normal form of control trees. Whatever gathers controls flattens containers and merges
literals one after another, so that a list of siblings has literals, code and typed controls only, no
literal of it is empty, and no two literals are neighbours. Properties are set apart, and each comes
from a sub-element that names a declared property. Literals of one page are of one file, which is why
no merge fails and every page can be read. -/

namespace ServerPages

namespace Control

mutual

def within : Control → List Control
  | .root children => .root children :: withinAll children
  | .literal text location => [.literal text location]
  | .code body location => [.code body location]
  | .property name value location => .property name value location :: within value
  | .typed head properties children =>
    .typed head properties children :: (withinAll properties ++ withinAll children)

def withinAll : List Control → List Control
  | [] => []
  | control :: controls => within control ++ withinAll controls

end

def isLiteral : Control → Bool
  | .literal _ _ => true
  | _ => false

/-- What stands in a list of siblings of a page: no container, no property and no empty literal. -/
def IsSibling (path : Text) : Control → Prop
  | .literal text location => text ≠ [] ∧ location.path = path
  | .code _ _ | .typed _ _ _ => True
  | .root _ | .property _ _ _ => False

def flat : Control → List Control
  | .root children => children
  | control => [control]

theorem mem_withinAll {c : Control} {controls : List Control} :
    c ∈ withinAll controls ↔ ∃ control ∈ controls, c ∈ control.within := by
  induction controls with
  | nil => simp [withinAll]
  | cons control controls ih => simp [withinAll, ih]

end Control

/-- Siblings of a page: no two literals are neighbours. -/
structure Siblings (path : Text) (controls : List Control) : Prop where
  each : ∀ c ∈ controls, c.IsSibling path
  apart : controls.IsChain fun a b => a.isLiteral = false ∨ b.isLiteral = false

namespace Site

/-- The property is assigned by one of the sub-elements `children`, which names a property that is
declared; a value that is no template has no literals. -/
def Assigned (site : Site) (info : ControlInfo) (children : List Node) (p : Control) : Prop :=
  ∃ tag closing inside dataType siblings, .element tag closing inside ∈ children ∧
    info.dataType? tag.localName = some dataType ∧
    p = .property tag.localName
      (.typed (site.head tag (Node.span (.element tag closing inside)) (propertyType tag dataType)
        none) [] siblings)
      (site.locate (Node.span (.element tag closing inside))) ∧
    (dataType.kind ≠ .template → ∀ c ∈ siblings, c.isLiteral = false)

/-- The property is assigned in the element that the control `head` is of. -/
def Assigns (site : Site) (tree : List Node) (head : ControlHead) (p : Control) : Prop :=
  ∃ tag closing children scope info, .element tag closing children ∈ Node.withinAll tree ∧
    head.location = site.locate (Node.span (.element tag closing children)) ∧
    tag.scope? = some scope ∧ site.lookup scope tag.localName = some info ∧
    site.Assigned info children p

/-- What is inside a control is in order. -/
def Normal (site : Site) (tree : List Node) : Control → Prop
  | .typed head properties children =>
    Siblings site.path children ∧ ∀ p ∈ properties, site.Assigns tree head p
  | _ => True

/-- A control that can be a sibling, with everything inside it in order. -/
def Sound (site : Site) (tree : List Node) (c : Control) : Prop :=
  c.IsSibling site.path ∧ ∀ d ∈ c.within, site.Normal tree d

end Site

namespace Listing

theorem addAll_append (l : Listing) (as bs : List Control) :
    l.addAll (as ++ bs) = (l.addAll as).addAll bs := by
  induction as generalizing l with
  | nil => simp [addAll]
  | cons a as ih => rw [List.cons_append, addAll, addAll, ih]

/-- A container is added as its children are. -/
theorem addAll_flat (l : Listing) (controls : List Control) :
    l.addAll (controls.flatMap Control.flat) = l.addAll controls := by
  induction controls generalizing l with
  | nil => simp [addAll]
  | cons c controls ih =>
    rw [List.flatMap_cons, addAll_append, ih, addAll]
    cases c <;> simp [Control.flat, add, addAll]

variable {site : Site} {tree : List Node} {drop : Bool} {l : Listing}

/-- The gathered siblings are in normal form so far, and no merge has failed. -/
structure Sound (site : Site) (tree : List Node) (drop : Bool) (l : Listing) : Prop where
  merged : l.mismatch = none
  each : ∀ c ∈ l.latest, site.Sound tree c
  apart : l.latest.IsChain fun a b => a.isLiteral = false ∨ b.isLiteral = false
  drops : l.dropLiterals = drop
  dropped : drop = true → ∀ c ∈ l.latest, c.isLiteral = false

theorem sound_empty (drop : Bool) : (empty drop).Sound site tree drop :=
  ⟨rfl, by simp [empty], by simp [empty], rfl, by simp [empty]⟩

theorem Sound.append (h : l.Sound site tree drop) {c : Control} (hc : site.Sound tree c)
    (hfirst : ∀ d ∈ l.latest.head?, c.isLiteral = false ∨ d.isLiteral = false)
    (hdrop : drop = true → c.isLiteral = false) : (l.append c).Sound site tree drop := by
  refine ⟨h.merged, ?_, ?_, h.drops, ?_⟩
  · intro d hd
    rcases List.mem_cons.1 hd with rfl | hd
    · exact hc
    · exact h.each d hd
  · exact List.isChain_cons.2 ⟨hfirst, h.apart⟩
  · intro hl d hd
    rcases List.mem_cons.1 hd with rfl | hd
    · exact hdrop hl
    · exact h.dropped hl d hd

theorem sound_literal {text : Text} {location : Location} (htext : text ≠ [])
    (hpath : location.path = site.path) : site.Sound tree (.literal text location) :=
  ⟨⟨htext, hpath⟩, by simp [Control.within, Site.Normal]⟩

theorem Sound.addLiteral (h : l.Sound site tree drop) {text : Text} {location : Location}
    (htext : text ≠ []) (hpath : location.path = site.path) :
    (l.addLiteral text location).Sound site tree drop := by
  unfold Listing.addLiteral
  split
  · exact h
  · next hkeep =>
    have hdrop : drop = false := by simpa [h.drops] using hkeep
    split
    · next before start latest hlatest =>
      have hbefore := h.each (.literal before start) (by simp [hlatest])
      have hwhole : start.combine location = .ok ⟨site.path, start.start, location.stop⟩ := by
        rw [Location.combine, hbefore.1.2, hpath, if_pos rfl]
      rw [hwhole]
      refine ⟨h.merged, ?_, ?_, h.drops, by simp [hdrop]⟩
      · intro d hd
        rcases List.mem_cons.1 hd with rfl | hd
        · exact sound_literal (by simp [htext]) rfl
        · exact h.each d (by simp [hlatest, hd])
      · have hapart := h.apart
        rw [hlatest, List.isChain_cons] at hapart
        exact List.isChain_cons.2 hapart
    · next hlatest =>
      refine h.append (sound_literal htext hpath) ?_ (by simp [hdrop])
      intro d hd
      right
      cases d with
      | literal before start =>
        obtain ⟨latest, hl⟩ := List.head?_eq_some_iff.1 hd
        exact absurd hl (hlatest before start latest)
      | _ => rfl

theorem Sound.add (h : l.Sound site tree drop) {c : Control} (hc : site.Sound tree c) :
    (l.add c).Sound site tree drop := by
  cases c with
  | root children => exact absurd hc.1 (by simp [Control.IsSibling])
  | property name value location => exact absurd hc.1 (by simp [Control.IsSibling])
  | literal text location =>
    rw [Listing.add]
    exact h.addLiteral hc.1.1 hc.1.2
  | code body location =>
    rw [Listing.add]
    exact h.append hc (fun _ _ => .inl rfl) (fun _ => rfl)
  | typed head properties children =>
    rw [Listing.add]
    exact h.append hc (fun _ _ => .inl rfl) (fun _ => rfl)

theorem Sound.addAll (h : l.Sound site tree drop) {controls : List Control}
    (hc : ∀ c ∈ controls, site.Sound tree c) : (l.addAll controls).Sound site tree drop := by
  induction controls generalizing l with
  | nil =>
    rw [Listing.addAll]
    exact h
  | cons c controls ih =>
    rw [Listing.addAll]
    exact ih (h.add (hc c (List.mem_cons_self ..))) fun d hd => hc d (List.mem_cons_of_mem _ hd)

end Listing

namespace Findings

variable {site : Site} {tree : List Node}

/-- The templates found are in normal form, and no merge has failed. -/
structure Sound (site : Site) (tree : List Node) (found : Findings) : Prop where
  merged : found.mismatches = []
  templates : ∀ t ∈ found.templates,
    Siblings site.path t.controls ∧ ∀ c ∈ t.controls, site.Sound tree c

theorem Sound.append {a b : Findings} (ha : a.Sound site tree) (hb : b.Sound site tree) :
    (a ++ b).Sound site tree := by
  refine ⟨?_, ?_⟩
  · show a.mismatches ++ b.mismatches = []
    rw [ha.merged, hb.merged, List.nil_append]
  · intro t ht
    rcases List.mem_append.1 ht with h | h
    · exact ha.templates t h
    · exact hb.templates t h

theorem Sound.of_nil {found : Findings} (htemplates : found.templates = [])
    (hmismatches : found.mismatches = []) : found.Sound site tree :=
  ⟨hmismatches, by simp [htemplates]⟩

end Findings

namespace Site

variable {site : Site} {tree : List Node}

/-- Gathering controls gives siblings in normal form. -/
theorem gather_sound (drop : Bool) {controls : List Control}
    (h : ∀ c ∈ controls.flatMap Control.flat, site.Sound tree c) :
    Siblings site.path (gather drop controls).1 ∧
      (∀ c ∈ (gather drop controls).1, site.Sound tree c) ∧
      (drop = true → ∀ c ∈ (gather drop controls).1, c.isLiteral = false) ∧
      (gather drop controls).2 = {} := by
  have hempty : (Listing.empty drop).Sound site tree drop := Listing.sound_empty drop
  have hsound := hempty.addAll h
  rw [Listing.addAll_flat] at hsound
  have hmem : ∀ c, c ∈ (gather drop controls).1 ↔
      c ∈ ((Listing.empty drop).addAll controls).latest := by
    intro c
    exact List.mem_reverse
  refine ⟨⟨?_, ?_⟩, ?_, ?_, ?_⟩
  · intro c hc
    exact (hsound.each c ((hmem c).1 hc)).1
  · apply List.isChain_reverse.2
    refine hsound.apart.imp ?_
    intro a b hab
    exact hab.symm
  · intro c hc
    exact hsound.each c ((hmem c).1 hc)
  · intro hd c hc
    exact hsound.dropped hd c ((hmem c).1 hc)
  · simp [gather, hsound.merged]

end Site

/-- The nodes are part of the tree, and something is written at each of their places. -/
structure Node.Belong (tree nodes : List Node) : Prop where
  within : ∀ node ∈ withinAll nodes, node ∈ withinAll tree
  pieces : ∀ piece ∈ piecesAll nodes, piece.text ≠ []

namespace Node.Belong

variable {tree nodes children : List Node} {node : Node} {tag : Tag} {closing : Closing}

theorem first (h : Belong tree (node :: nodes)) : Belong tree [node] :=
  ⟨fun d hd => h.within d (by simp_all [withinAll]), fun p hp => h.pieces p (by simp_all [piecesAll])⟩

theorem rest (h : Belong tree (node :: nodes)) : Belong tree nodes :=
  ⟨fun d hd => h.within d (by simp_all [withinAll]), fun p hp => h.pieces p (by simp_all [piecesAll])⟩

theorem inside (h : Belong tree [.element tag closing children]) : Belong tree children :=
  ⟨fun d hd => h.within d (by simp_all [withinAll, Node.within]),
    fun p hp => h.pieces p (by simp_all [piecesAll, Node.pieces])⟩

end Node.Belong

namespace Site

variable {site : Site} {tree nodes children : List Node} {tag : Tag} {closing : Closing}

theorem sound_typed {head : ControlHead} {properties siblings : List Control}
    (hsiblings : Siblings site.path siblings) (hsound : ∀ c ∈ siblings, site.Sound tree c)
    (hassigns : ∀ p ∈ properties, site.Assigns tree head p)
    (hnormal : ∀ p ∈ properties, ∀ d ∈ p.within, site.Normal tree d) :
    site.Sound tree (.typed head properties siblings) := by
  refine ⟨trivial, ?_⟩
  intro d hd
  rw [Control.within] at hd
  rcases List.mem_cons.1 hd with rfl | hd
  · exact ⟨hsiblings, hassigns⟩
  · rcases List.mem_append.1 hd with hd | hd
    · obtain ⟨p, hp, hd⟩ := Control.mem_withinAll.1 hd
      exact hnormal p hp d hd
    · obtain ⟨c, hc, hd⟩ := Control.mem_withinAll.1 hd
      exact (hsound c hc).2 d hd

def info? (site : Site) (tag : Tag) : Option ControlInfo :=
  tag.scope?.bind fun scope => site.lookup scope tag.localName

theorem assigns_of_assigned {info : ControlInfo} {typeName : QualifiedName} {p : Control}
    {about : Option ControlInfo} (h : .element tag closing children ∈ Node.withinAll tree)
    (hinfo : site.info? tag = some info) (hp : site.Assigned info children p) :
    site.Assigns tree
      (site.head tag (Node.span (.element tag closing children)) typeName about) p := by
  obtain ⟨scope, hscope, hlookup⟩ := Option.bind_eq_some_iff.1 hinfo
  exact ⟨tag, closing, children, scope, info, h, rfl, hscope, hlookup, hp⟩

theorem info?_of_known {registered : UserControls} {info : ControlInfo}
    (h : Resolution.of site.lookup registered tag = .known info) : site.info? tag = some info := by
  unfold Resolution.of at h
  unfold info?
  split at h
  · split at h <;> simp at h
  · next scope hscope =>
    rw [hscope, Option.bind_some]
    split at h
    · cases h
    · split at h
      · cases h
      · split at h
        · next hlookup =>
          cases h
          exact hlookup
        · split at h <;> cases h

/-- What a visit gives is in order: its controls, once flattened, and its findings. -/
structure Visited (site : Site) (tree : List Node) (controls : List Control) (found : Findings) :
    Prop where
  controls : ∀ c ∈ controls.flatMap Control.flat, site.Sound tree c
  found : found.Sound site tree

theorem Visited.none {found : Findings} (h : found.Sound site tree) : site.Visited tree [] found :=
  ⟨by simp, h⟩

theorem Sound.flat {c : Control} (h : site.Sound tree c) : c.flat = [c] := by
  cases c with
  | root children => exact h.1.elim
  | _ => rfl

theorem Visited.one {c : Control} {found : Findings} (hc : site.Sound tree c)
    (h : found.Sound site tree) : site.Visited tree [c] found :=
  ⟨by simpa [hc.flat] using hc, h⟩

theorem Visited.append {as bs : List Control} {found more : Findings}
    (ha : site.Visited tree as found) (hb : site.Visited tree bs more) :
    site.Visited tree (as ++ bs) (found ++ more) := by
  refine ⟨?_, ha.found.append hb.found⟩
  intro c hc
  rw [List.flatMap_append] at hc
  rcases List.mem_append.1 hc with hc | hc
  · exact ha.controls c hc
  · exact hb.controls c hc

theorem sound_of_place {place : Fragment} (h : place.text ≠ []) :
    site.Sound tree (site.literal place) :=
  Listing.sound_literal h rfl

theorem closingLiteral_sound (h : ∀ place, closing = .closed place → place.text ≠ []) (stop : Nat) :
    ∀ c ∈ site.closingLiteral tag closing stop, site.Sound tree c := by
  cases closing with
  | closed place => simpa [closingLiteral] using sound_of_place (h place rfl)
  | endOfInput =>
    rintro _ (_ | ⟨_, ⟨⟩⟩)
    exact Listing.sound_literal (by simp) rfl
  | _ => simp [closingLiteral]

theorem Visited.gather {controls : List Control} {found : Findings}
    (h : site.Visited tree controls found) (drop : Bool) :
    Siblings site.path (gather drop controls).1 ∧
      (∀ c ∈ (gather drop controls).1, site.Sound tree c) ∧
      (found ++ (gather drop controls).2).Sound site tree := by
  obtain ⟨hsiblings, hsound, -, hclash⟩ := gather_sound drop h.controls
  refine ⟨hsiblings, hsound, h.found.append ?_⟩
  rw [hclash]
  exact .of_nil rfl rfl

/-- The properties that sub-elements assign are those declared, with everything inside in order. -/
def Members (site : Site) (tree : List Node) (info : Option ControlInfo) (children : List Node)
    (properties : List Control) : Prop :=
  ∀ p ∈ properties, (∃ about, info = some about ∧ site.Assigned about children p) ∧
    ∀ d ∈ p.within, site.Normal tree d

theorem Members.typed {properties controls : List Control} {found : Findings}
    {info : Option ControlInfo} (typeName : QualifiedName)
    (hmem : .element tag closing children ∈ Node.withinAll tree)
    (hinfo : ∀ about, info = some about → site.info? tag = some about)
    (hmembers : site.Members tree info children properties)
    (h : site.Visited tree controls found) :
    site.Visited tree [.typed (site.head tag (Node.span (.element tag closing children)) typeName info)
      properties (Site.gather false controls).1] (found ++ (Site.gather false controls).2) := by
  obtain ⟨hsiblings, hsound, hfound⟩ := h.gather false
  refine .one (Site.sound_typed hsiblings hsound ?_ fun p hp => (hmembers p hp).2) hfound
  intro p hp
  obtain ⟨⟨about, habout, hassigned⟩, -⟩ := hmembers p hp
  exact assigns_of_assigned hmem (hinfo about habout) hassigned

theorem Visited.typed {controls : List Control} {found : Findings}
    (h : site.Visited tree controls found) (head : ControlHead) :
    site.Visited tree [.typed head [] (Site.gather false controls).1]
      (found ++ (Site.gather false controls).2) := by
  obtain ⟨hsiblings, hsound, hfound⟩ := h.gather false
  exact .one (Site.sound_typed hsiblings hsound (by simp) (by simp)) hfound

theorem Members.nil {info : Option ControlInfo} : site.Members tree info nodes [] := by
  simp [Members]

theorem Members.append {node : Node} {nodes : List Node} {info : Option ControlInfo}
    {as bs : List Control} (ha : site.Members tree info [node] as)
    (hb : site.Members tree info nodes bs) : site.Members tree info (node :: nodes) (as ++ bs) := by
  intro p hp
  rcases List.mem_append.1 hp with hp | hp
  · obtain ⟨⟨about, habout, tag, closing, inside, dataType, siblings, hmem, hrest⟩, hnormal⟩ := ha p hp
    refine ⟨⟨about, habout, tag, closing, inside, dataType, siblings, ?_, hrest⟩, hnormal⟩
    rw [List.mem_singleton.1 hmem]
    exact List.mem_cons_self ..
  · obtain ⟨⟨about, habout, tag, closing, inside, dataType, siblings, hmem, hrest⟩, hnormal⟩ := hb p hp
    exact ⟨⟨about, habout, tag, closing, inside, dataType, siblings, List.mem_cons_of_mem _ hmem, hrest⟩,
      hnormal⟩

/-- A sub-element that names a declared property gives an assignment to it. -/
theorem members_promoted {info : Option ControlInfo} {dataType : DataType} {controls : List Control}
    {found : Findings} (hpromoted : promoted? info tag = some dataType)
    (h : site.Visited tree controls found) :
    site.Members tree info [.element tag closing children] [.property tag.localName
      (.typed (site.head tag (Node.span (.element tag closing children)) (propertyType tag dataType)
        none) [] (Site.gather (dataType.kind != .template) controls).1)
      (site.locate (Node.span (.element tag closing children)))] := by
  obtain ⟨about, rfl, hguard⟩ := Option.bind_eq_some_iff.1 hpromoted
  obtain ⟨-, -, hdeclared⟩ := Option.bind_eq_some_iff.1 hguard
  obtain ⟨hsiblings, hsound, hliteral, -⟩ := gather_sound (dataType.kind != .template) h.controls
  intro p hp
  rw [List.mem_singleton.1 hp]
  refine ⟨⟨about, rfl, tag, closing, children, dataType, _, List.mem_singleton.2 rfl, hdeclared, rfl,
    fun hkind => hliteral (by simpa using hkind)⟩, ?_⟩
  intro d hd
  rw [Control.within] at hd
  rcases List.mem_cons.1 hd with rfl | hd
  · trivial
  · exact (Site.sound_typed hsiblings hsound (by simp) (by simp)).2 d hd

/-- Plain markup: its tags are literals around what its children give. -/
theorem Visited.markup {controls : List Control} {found : Findings}
    (hpieces : Node.Belong tree [.element tag closing children])
    (h : site.Visited tree controls found) (stop : Nat) :
    site.Visited tree
      (site.literal tag.opening :: controls ++ site.closingLiteral tag closing stop) found := by
  have hopening : tag.opening.text ≠ [] :=
    hpieces.pieces _ (by simp [Node.piecesAll, Node.pieces])
  have hclosing : ∀ place, closing = .closed place → place.text ≠ [] := by
    rintro place rfl
    exact hpieces.pieces _ (by simp [Node.piecesAll, Node.pieces, Closing.pieces])
  refine ⟨?_, h.found⟩
  intro c hc
  rw [List.flatMap_append, List.flatMap_cons] at hc
  rcases List.mem_append.1 hc with hc | hc
  · rcases List.mem_append.1 hc with hc | hc
    · rw [List.mem_singleton.1 hc]
      exact sound_of_place hopening
    · exact h.controls c hc
  · obtain ⟨d, hd, hc⟩ := List.mem_flatMap.1 hc
    have hsound : site.Sound tree d := closingLiteral_sound hclosing stop d hd
    rw [hsound.flat] at hc
    rwa [List.mem_singleton.1 hc]

theorem visitMembers_promoted (registered : UserControls) (nodes : List Node)
    {info : Option ControlInfo} {dataType : DataType} (h : promoted? info tag = some dataType) :
    site.visitMembers registered info (.element tag closing children :: nodes) =
      let all := site.visitAll registered children
      let gathered := Site.gather (dataType.kind != .template) all.1
      let span := Node.span (.element tag closing children)
      let others := site.visitMembers
        (UserControls.extend registered (all.2 ++ gathered.2).registrations) info nodes
      (.property tag.localName (.typed (site.head tag span (propertyType tag dataType) none) []
        gathered.1) (site.locate span) :: others.1, others.2.1, all.2 ++ gathered.2 ++ others.2.2) := by
  rw [visitMembers]
  simp only [h]
  rfl

theorem visitMembers_other (registered : UserControls) (nodes : List Node) {node : Node}
    {info : Option ControlInfo} (h : ∀ tag closing children, node = .element tag closing children →
      promoted? info tag = none) :
    site.visitMembers registered info (node :: nodes) =
      let here := site.visit registered node
      let others := site.visitMembers (UserControls.extend registered here.2.registrations) info nodes
      (others.1, here.1.toList ++ others.2.1, here.2 ++ others.2.2) := by
  cases node with
  | element tag closing children =>
    rw [visitMembers]
    simp only [h tag closing children rfl]
    rfl
  | _ =>
    rw [visitMembers]
    · rfl
    · simp

mutual

/-- The control of a node and what is found in it are in order. -/
theorem visit_visited (registered : UserControls) (node : Node) (h : Node.Belong tree [node]) :
    site.Visited tree (site.visit registered node).1.toList (site.visit registered node).2 := by
  cases node with
  | directive d =>
    rw [visit]
    exact .none (.of_nil rfl rfl)
  | literal place =>
    rw [visit]
    exact .one (sound_of_place (h.pieces place (by simp [Node.piecesAll, Node.pieces])))
      (.of_nil rfl rfl)
  | code kind body place =>
    cases kind with
    | encode =>
      rw [visit]
      exact .one ⟨trivial, by simp [Control.within, Normal]⟩ (.of_nil rfl rfl)
    | _ =>
      rw [visit]
      · exact .none (.of_nil rfl rfl)
      · simp
  | binding expression encode place =>
    rw [visit]
    exact .none (.of_nil rfl rfl)
  | element tag closing children =>
    have hmem : .element tag closing children ∈ Node.withinAll tree :=
      h.within _ (by simp [Node.withinAll, Node.within])
    have hall := visitAll_visited registered children h.inside
    rw [visit]
    by_cases hserver : (!tag.isServer) = true
    · -- plain markup is a container of siblings, which are flattened where it is collected
      rw [if_pos hserver]
      obtain ⟨-, hsound, hfound⟩ := (hall.markup h _).gather false
      exact ⟨by simpa [Control.flat] using hsound, hfound⟩
    · rw [if_neg hserver]
      cases hof : Resolution.of site.lookup registered tag with
      | content =>
        -- a block is taken out of the tree: its siblings are those of a template
        dsimp only
        split
        · exact .none (.of_nil rfl rfl)
        · obtain ⟨hsiblings, hsound, hfound⟩ := hall.gather false
          refine .none ⟨hfound.merged, ?_⟩
          intro t ht
          rcases List.mem_cons.1 ht with rfl | ht
          · exact ⟨hsiblings, hsound⟩
          · exact hfound.templates t ht
      | placeholder id =>
        obtain ⟨hmembers, hvisited⟩ :=
          visitMembers_visited registered (site.info? tag) children h.inside
        have htyped := hmembers.typed placeholderType hmem (fun _ h => h) hvisited
        exact ⟨htyped.controls, htyped.found.merged, htyped.found.templates⟩
      | known about =>
        obtain ⟨hmembers, hvisited⟩ := visitMembers_visited registered (some about) children h.inside
        refine hmembers.typed about.typeName hmem ?_ hvisited
        rintro _ ⟨⟩
        exact info?_of_known hof
      | user typeName => exact hall.typed _
      | html typeName => exact hall.typed _
      | script => exact .none (.of_nil rfl rfl)
      | unknown => exact .none (.of_nil rfl rfl)

theorem visitAll_visited (registered : UserControls) (nodes : List Node)
    (h : Node.Belong tree nodes) :
    site.Visited tree (site.visitAll registered nodes).1 (site.visitAll registered nodes).2 := by
  cases nodes with
  | nil =>
    rw [visitAll]
    exact .none (.of_nil rfl rfl)
  | cons node nodes =>
    rw [visitAll]
    exact (visit_visited registered node h.first).append (visitAll_visited _ nodes h.rest)

theorem visitMembers_visited (registered : UserControls) (info : Option ControlInfo)
    (nodes : List Node) (h : Node.Belong tree nodes) :
    site.Members tree info nodes (site.visitMembers registered info nodes).1 ∧
      site.Visited tree (site.visitMembers registered info nodes).2.1
        (site.visitMembers registered info nodes).2.2 := by
  cases nodes with
  | nil =>
    rw [visitMembers]
    exact ⟨.nil, .none (.of_nil rfl rfl)⟩
  | cons node nodes =>
    by_cases hnode : ∃ tag closing children dataType, node = .element tag closing children ∧
        promoted? info tag = some dataType
    · obtain ⟨tag, closing, children, dataType, rfl, hpromoted⟩ := hnode
      have hall := visitAll_visited registered children h.first.inside
      obtain ⟨-, -, hfound⟩ := hall.gather (dataType.kind != .template)
      obtain ⟨hmembers, hvisited⟩ := visitMembers_visited (UserControls.extend registered
        ((site.visitAll registered children).2 ++
          (gather (dataType.kind != .template) (site.visitAll registered children).1).2).registrations)
        info nodes h.rest
      rw [visitMembers_promoted _ _ hpromoted]
      exact ⟨(members_promoted hpromoted hall).append hmembers, (Visited.none hfound).append hvisited⟩
    · have hvisit := visit_visited registered node h.first
      obtain ⟨hmembers, hvisited⟩ := visitMembers_visited (UserControls.extend registered
        (site.visit registered node).2.registrations) info nodes h.rest
      have hother : ∀ tag closing children, node = .element tag closing children →
          promoted? info tag = none := by
        intro tag closing children he
        cases hpromoted : promoted? info tag with
        | none => rfl
        | some dataType => exact absurd ⟨tag, closing, children, dataType, he, hpromoted⟩ hnode
      rw [visitMembers_other _ _ hother]
      exact ⟨Members.nil.append hmembers, hvisit.append hvisited⟩

end

end Site

theorem Node.belong_parse (source : Text) :
    Node.Belong (parse source).nodes (parse source).nodes :=
  ⟨fun _ h => h, fun _ h => text_ne_nil_of_mem_pieces h⟩

namespace Page

/-- The controls of a page and of its templates, at any depth. -/
def controls (page : Page) : List Control :=
  Control.withinAll page.root ++ page.templates.flatMap fun t => Control.withinAll t.controls

/-- The lists of siblings of a page: the top level, those of the templates, and the children of every
typed control. -/
def siblings (page : Page) : List (List Control) :=
  page.root :: (page.templates.map (·.controls) ++ page.controls.filterMap fun
    | .typed _ _ children => some children
    | _ => none)

def site (path source : Text) (lookup : Lookup) : Site := ⟨path, LineIndex.ofText source, lookup⟩

theorem visited (path source : Text) (lookup : Lookup) :
    (site path source lookup).Visited (parse source).nodes
      ((site path source lookup).visitAll .empty (parse source).nodes).1
      ((site path source lookup).visitAll .empty (parse source).nodes).2 :=
  Site.visitAll_visited _ _ (Node.belong_parse source)

/-- No merge of literals fails, so a page can always be read. -/
theorem read_eq_ok (path source : Text) (lookup : Lookup) :
    read path source lookup = .ok (ofSource path source lookup) := by
  have hmismatches : mismatches path source lookup = [] :=
    ((visited path source lookup).gather false).2.2.merged
  rw [read, hmismatches]

theorem mem_controls {page : Page} {c : Control} (h : c ∈ page.controls) :
    (∃ d ∈ page.root, c ∈ d.within) ∨ ∃ t ∈ page.templates, ∃ d ∈ t.controls, c ∈ d.within := by
  rcases List.mem_append.1 h with h | h
  · exact .inl (Control.mem_withinAll.1 h)
  · obtain ⟨t, ht, h⟩ := List.mem_flatMap.1 h
    exact .inr ⟨t, ht, Control.mem_withinAll.1 h⟩

theorem normal_of_mem_controls {path source : Text} {lookup : Lookup} {c : Control}
    (h : c ∈ (ofSource path source lookup).controls) :
    (site path source lookup).Normal (parse source).nodes c := by
  obtain ⟨-, hroot, -⟩ := (visited path source lookup).gather false
  rcases mem_controls h with ⟨d, hd, hc⟩ | ⟨t, ht, d, hd, hc⟩
  · exact (hroot d hd).2 c hc
  · exact (((visited path source lookup).found.templates t ht).2 d hd).2 c hc

/-- Every page can be read. In each list of siblings of it there are no containers, no properties, no
empty literals and no neighbouring literals, and each property of a control is one that is declared for
it and assigned by a sub-element, to a typed value without properties that has literals only if it is a
template. -/
theorem read_normal_form (path source : Text) (lookup : Lookup) :
    ∃ page, read path source lookup = .ok page ∧
      (∀ siblings ∈ page.siblings, Siblings path siblings) ∧
      ∀ head properties children, .typed head properties children ∈ page.controls →
        ∀ p ∈ properties, (site path source lookup).Assigns (parse source).nodes head p := by
  refine ⟨_, read_eq_ok path source lookup, ?_, ?_⟩
  · intro siblings h
    rcases List.mem_cons.1 h with rfl | h
    · exact ((visited path source lookup).gather false).1
    · rcases List.mem_append.1 h with h | h
      · obtain ⟨t, ht, rfl⟩ := List.mem_map.1 h
        exact ((visited path source lookup).found.templates t ht).1
      · obtain ⟨c, hc, hchildren⟩ := List.mem_filterMap.1 h
        cases c with
        | typed head properties children =>
          cases hchildren
          exact (normal_of_mem_controls hc).1
        | _ => cases hchildren
  · intro head properties children h
    exact (normal_of_mem_controls h).2

end Page

end ServerPages
