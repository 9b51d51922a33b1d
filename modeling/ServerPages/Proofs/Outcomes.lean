import Mathlib.Algebra.Order.Group.Multiset
import Mathlib.Tactic.Abel
import ServerPages.Proofs.Siblings

/-! Nothing that a page asks of the server is lost, and nothing is done twice. Some elements hide what
is inside them: an unknown control, a content block that names no placeholder, a server script. Every
other node is visited, and a server tag that is visited comes to one thing: a control, a template, a
script, an error, or a property of the control around it. What a page has of these is what its visited
tags come to, wherever in the page it ends up. -/

namespace ServerPages

/-- A part of a page that a tag comes to; of a control or a property without what is inside it. -/
inductive PagePart where
  | control (head : ControlHead)
  | property (name : Text) (value : Option ControlHead) (location : Location)
  | template (id : Option Text) (placeholder : Text) (location : Location)
  | script (script : Script)
  | error (error : PageError)

namespace Control

mutual

/-- The controls and properties in a control, itself included. The value of a property is part of the
property. -/
def outcomes : Control → List PagePart
  | .root children => outcomesAll children
  | .literal _ _ => []
  | .code _ _ => []
  | .property name (.typed head properties children) location =>
    .property name head location :: (outcomesAll properties ++ outcomesAll children)
  | .property name value location => .property name value.head? location :: outcomes value
  | .typed head properties children =>
    .control head :: (outcomesAll properties ++ outcomesAll children)

def outcomesAll : List Control → List PagePart
  | [] => []
  | control :: controls => outcomes control ++ outcomesAll controls

end

@[simp] theorem outcomesAll_append (as bs : List Control) :
    outcomesAll (as ++ bs) = outcomesAll as ++ outcomesAll bs := by
  induction as with
  | nil => simp [outcomesAll]
  | cons a as ih => simp [outcomesAll, ih]

end Control

def Template.outcomes (t : Template) : List PagePart :=
  .template t.id t.placeholder t.location :: Control.outcomesAll t.controls

/-- All that some controls and what was found beside them hold, in whatever order. -/
def outcomesOf (controls : List Control) (templates : List Template) (scripts : List Script)
    (errors : List PageError) : Multiset PagePart :=
  (Control.outcomesAll controls : Multiset PagePart) + (templates.flatMap Template.outcomes : List PagePart) +
    (scripts.map PagePart.script : List PagePart) + (errors.map PagePart.error : List PagePart)

/-- An element around a node, and what the page registers before it. -/
structure Around where
  tag : Tag
  registered : List Registration

/-- A node in its place. -/
structure Spot where
  /-- the elements around the node, the innermost first -/
  around : List Around
  /-- what the visited directives before the node register -/
  registered : List Registration
  node : Node

def Tag.placeholder? (tag : Tag) : Option Text := tag.given? "ContentPlaceHolderID".toList

/-- Whether what is inside a tag is left alone: an unknown control, a script, or a content block that
is meant for no placeholder. -/
def Resolution.hides (tag : Tag) : Resolution → Bool
  | .unknown | .script => true
  | .content => tag.placeholder?.isNone
  | _ => false

namespace Site

variable (site : Site)

def resolve (e : Around) : Resolution :=
  Resolution.of site.lookup (UserControls.extend .empty e.registered) e.tag

/-- What is known about the control of an element, which decides what its sub-elements assign. -/
def controlInfo? (e : Around) : Option ControlInfo :=
  match site.resolve e with
  | .known info => some info
  | .placeholder _ => site.info? e.tag
  | _ => none

/-- The data type of the property that a tag assigns to the element around it. -/
def assigned? : List Around → Tag → Option DataType
  | [], _ => none
  | e :: _, tag => promoted? (site.controlInfo? e) tag

/-- Whether nothing is made of what is inside an element that stands in the elements `around`. -/
def hides (e : Around) (around : List Around) : Bool :=
  e.tag.isServer && (site.assigned? around e.tag).isNone && (site.resolve e).hides e.tag

/-- Whether none of the elements around a node hides what is inside it. -/
def visits : List Around → Bool
  | [] => true
  | e :: around => !site.hides e around && visits around

def outcome (e : Around) (closing : Closing) (children : List Node) : PagePart :=
  let span := Node.span (.element e.tag closing children)
  match site.resolve e with
  | .content =>
    match e.tag.placeholder? with
    | none => .error (site.missingPlaceholder e.tag)
    | some placeholder => .template e.tag.id? placeholder (site.locate span)
  | .placeholder _ => .control (site.head e.tag span placeholderType (site.info? e.tag))
  | .known info => .control (site.head e.tag span info.typeName (some info))
  | .user typeName | .html typeName => .control (site.head e.tag span typeName none)
  | .script => .script (site.script children span)
  | .unknown => .error (site.unknownControl e.tag)

def outcome? (spot : Spot) : Option PagePart :=
  match spot.node with
  | .element tag closing children =>
    let span := Node.span (.element tag closing children)
    match site.assigned? spot.around tag with
    | some dataType =>
      some (.property tag.localName
        (some (site.head tag span (propertyType tag dataType) none)) (site.locate span))
    | none =>
      if tag.isServer then some (site.outcome ⟨tag, spot.registered⟩ closing children) else none
  | _ => none

def registrations : Node → List Registration
  | .directive d => (site.directive d).registrations
  | _ => []

def visited (spots : List Spot) : List Spot := spots.filter (site.visits ·.around)

mutual

/-- A node and all nodes inside it in document order, each in its place. -/
def spots (around : List Around) (registered : List Registration) : Node → List Spot
  | .element tag closing children =>
    ⟨around, registered, .element tag closing children⟩ ::
      spotsAll (⟨tag, registered⟩ :: around) registered children
  | .directive d => [⟨around, registered, .directive d⟩]
  | .literal place => [⟨around, registered, .literal place⟩]
  | .code kind body place => [⟨around, registered, .code kind body place⟩]
  | .binding expression encode place => [⟨around, registered, .binding expression encode place⟩]

def spotsAll (around : List Around) (registered : List Registration) : List Node → List Spot
  | [] => []
  | node :: nodes =>
    let here := spots around registered node
    here ++ spotsAll around
      (registered ++ (site.visited here).flatMap (site.registrations ·.node)) nodes

end

end Site

namespace Listing

theorem outcomes_addLiteral (l : Listing) (text : Text) (location : Location) :
    Control.outcomesAll (l.addLiteral text location).controls = Control.outcomesAll l.controls := by
  unfold addLiteral
  split
  · rfl
  · split
    · next before start latest hlatest =>
      split <;> simp [controls, hlatest, Control.outcomesAll, Control.outcomes]
    · simp [append, controls, Control.outcomesAll, Control.outcomes]

mutual

theorem outcomes_add (l : Listing) (c : Control) :
    Control.outcomesAll (l.add c).controls = Control.outcomesAll l.controls ++ c.outcomes := by
  cases c with
  | root children => rw [add, Control.outcomes, outcomes_addAll l children]
  | literal text location => simp [add, outcomes_addLiteral, Control.outcomes]
  | _ => simp [add, append, controls, Control.outcomesAll]

theorem outcomes_addAll (l : Listing) (cs : List Control) :
    Control.outcomesAll (l.addAll cs).controls =
      Control.outcomesAll l.controls ++ Control.outcomesAll cs := by
  cases cs with
  | nil => simp [addAll, Control.outcomesAll]
  | cons c cs =>
    rw [addAll, outcomes_addAll (l.add c) cs, outcomes_add l c, List.append_assoc,
      Control.outcomesAll]

end

end Listing

namespace Findings

variable (a b : Findings)

@[simp] theorem templates_append : (a ++ b).templates = a.templates ++ b.templates := rfl
@[simp] theorem scripts_append : (a ++ b).scripts = a.scripts ++ b.scripts := rfl
@[simp] theorem errors_append : (a ++ b).errors = a.errors ++ b.errors := rfl
@[simp] theorem registrations_append :
    (a ++ b).registrations = a.registrations ++ b.registrations := rfl

end Findings

theorem UserControls.extend_append (r : UserControls) (as bs : List Registration) :
    r.extend (as ++ bs) = (r.extend as).extend bs :=
  List.foldl_append

namespace Site

variable {site : Site} {around : List Around} {registered : List Registration}

theorem outcomes_gather (drop : Bool) (controls : List Control) :
    Control.outcomesAll (gather drop controls).1 = Control.outcomesAll controls := by
  have h := (Listing.empty drop).outcomes_addAll controls
  rwa [show (Listing.empty drop).controls = [] from rfl, Control.outcomesAll, List.nil_append] at h

@[simp] theorem visited_append (as bs : List Spot) :
    site.visited (as ++ bs) = site.visited as ++ site.visited bs :=
  List.filter_append ..

/-- The controls and findings of a visit hold what its visited nodes come to. -/
structure Accounts (site : Site) (spots : List Spot) (controls : List Control) (found : Findings) :
    Prop where
  outcomes : outcomesOf controls found.templates found.scripts found.errors =
    ((site.visited spots).filterMap site.outcome? : List PagePart)
  registrations : found.registrations =
    (site.visited spots).flatMap (site.registrations ·.node)

theorem Accounts.nil : site.Accounts [] [] {} := by
  constructor <;> simp [outcomesOf, visited, Control.outcomesAll]

theorem Accounts.append {as bs : List Spot} {controls others : List Control}
    {found more : Findings} (ha : site.Accounts as controls found) (hb : site.Accounts bs others more) :
    site.Accounts (as ++ bs) (controls ++ others) (found ++ more) := by
  refine ⟨?_, ?_⟩
  · rw [visited_append, List.filterMap_append, ← Multiset.coe_add, ← ha.outcomes, ← hb.outcomes]
    simp only [outcomesOf, Findings.templates_append, Findings.scripts_append,
      Findings.errors_append, Control.outcomesAll_append, List.flatMap_append, List.map_append,
      ← Multiset.coe_add]
    abel
  · rw [visited_append, List.flatMap_append, ← ha.registrations, ← hb.registrations,
      Findings.registrations_append]

/-- The properties of a control may come before its other members. -/
theorem Accounts.swap {spots : List Spot} {as bs cs : List Control} {found : Findings}
    (h : site.Accounts spots (as ++ (bs ++ cs)) found) :
    site.Accounts spots (bs ++ (as ++ cs)) found := by
  refine ⟨?_, h.registrations⟩
  rw [← h.outcomes]
  simp only [outcomesOf, Control.outcomesAll_append, ← Multiset.coe_add]
  abel

mutual

/-- Inside an element that hides what is in it nothing is visited. -/
theorem visited_spots_hidden {around : List Around} (h : site.visits around = false)
    (registered : List Registration) (node : Node) :
    site.visited (site.spots around registered node) = [] := by
  cases node with
  | element tag closing children =>
    have hinner : site.visits (⟨tag, registered⟩ :: around) = false := by simp [visits, h]
    rw [spots, visited, List.filter_cons_of_neg (by simp [h])]
    exact visited_spotsAll_hidden hinner registered children
  | _ => simp [spots, visited, h]

theorem visited_spotsAll_hidden {around : List Around} (h : site.visits around = false)
    (registered : List Registration) (nodes : List Node) :
    site.visited (site.spotsAll around registered nodes) = [] := by
  cases nodes with
  | nil => simp [spotsAll, visited]
  | cons node nodes =>
    rw [spotsAll, visited_append, visited_spots_hidden h registered node,
      visited_spotsAll_hidden h _ nodes, List.append_nil]

end

theorem accounts_hidden (h : site.visits around = false) (nodes : List Node) :
    site.Accounts (site.spotsAll around registered nodes) [] {} := by
  constructor <;>
    simp [outcomesOf, visited_spotsAll_hidden h registered nodes, Control.outcomesAll]

/-- What a visited element comes to is added to what is inside it. -/
theorem Accounts.element {tag : Tag} {closing : Closing} {children : List Node}
    {controls inner : List Control} {found within : Findings} (h : site.visits around = true)
    (hinner : site.Accounts (site.spotsAll (⟨tag, registered⟩ :: around) registered children) inner
      within)
    (houtcomes : outcomesOf controls found.templates found.scripts found.errors =
      ((site.outcome? ⟨around, registered, .element tag closing children⟩).toList : List PagePart) +
        outcomesOf inner within.templates within.scripts within.errors)
    (hregistrations : found.registrations = within.registrations) :
    site.Accounts (site.spots around registered (.element tag closing children)) controls found := by
  have hvisited : site.visited (site.spots around registered (.element tag closing children)) =
      ⟨around, registered, .element tag closing children⟩ ::
        site.visited (site.spotsAll (⟨tag, registered⟩ :: around) registered children) := by
    rw [spots, visited, List.filter_cons_of_pos (by simp [h])]
    rfl
  refine ⟨?_, ?_⟩
  · rw [hvisited, houtcomes, hinner.outcomes, Multiset.coe_add, List.filterMap_cons]
    cases site.outcome? ⟨around, registered, .element tag closing children⟩ <;> rfl
  · rw [hvisited, hregistrations, hinner.registrations]
    rfl

theorem assigned?_of_controlInfo? {e : Around} (h : site.controlInfo? e = none) (tag : Tag) :
    site.assigned? (e :: around) tag = none := by
  simp [assigned?, h, promoted?]

theorem scope?_of_promoted? {info : Option ControlInfo} {tag : Tag} {dataType : DataType}
    (h : promoted? info tag = some dataType) : tag.scope? = none := by
  obtain ⟨about, -, hguard⟩ := Option.bind_eq_some_iff.1 h
  obtain ⟨_, hguard, -⟩ := Option.bind_eq_some_iff.1 hguard
  have hprefix := (Option.guard_eq_some' _).1 hguard
  rw [Bool.and_eq_true, Option.isNone_iff_eq_none] at hprefix
  exact hprefix.2

theorem controlInfo?_of_scope? {e : Around} (h : e.tag.scope? = none) :
    site.controlInfo? e = none := by
  unfold controlInfo? resolve Resolution.of
  rw [h]
  dsimp only
  split_ifs <;> rfl

theorem outcomes_closingLiteral (tag : Tag) (closing : Closing) (stop : Nat) :
    Control.outcomesAll (site.closingLiteral tag closing stop) = [] := by
  cases closing <;> simp [closingLiteral, literal, Control.outcomesAll, Control.outcomes]

theorem Accounts.leaf {spot : Spot} {controls : List Control} {found : Findings}
    (h : site.visits spot.around = true) (hnone : site.outcome? spot = none)
    (houtcomes : outcomesOf controls found.templates found.scripts found.errors = 0)
    (hregistrations : found.registrations = site.registrations spot.node) :
    site.Accounts [spot] controls found := by
  constructor <;> simp [visited, h, hnone, houtcomes, hregistrations]

theorem Accounts.of_outcomes {spots : List Spot} {controls others : List Control} {found : Findings}
    (h : site.Accounts spots controls found)
    (he : Control.outcomesAll others = Control.outcomesAll controls) :
    site.Accounts spots others found := by
  refine ⟨?_, h.registrations⟩
  rw [← h.outcomes]
  simp only [outcomesOf, he]

/-- Nothing is lost when controls are gathered; properties are kept beside them. -/
theorem Accounts.gather {spots : List Spot} {controls : List Control} {found : Findings}
    (properties : List Control) (h : site.Accounts spots (properties ++ controls) found) (drop : Bool) :
    site.Accounts spots (properties ++ (Site.gather drop controls).1)
      (found ++ (Site.gather drop controls).2) := by
  have hclash : site.Accounts [] [] (Site.gather drop controls).2 := by
    constructor <;> simp [outcomesOf, visited, Control.outcomesAll, Site.gather]
  have hgathered : Control.outcomesAll (properties ++ (Site.gather drop controls).1) =
      Control.outcomesAll (properties ++ controls) := by
    rw [Control.outcomesAll_append, outcomes_gather, Control.outcomesAll_append]
  simpa using (h.of_outcomes hgathered).append hclash

theorem controlInfo?_of_not_server {e : Around} (h : e.tag.isServer = false) :
    site.controlInfo? e = none := by
  apply controlInfo?_of_scope?
  rw [Tag.isServer, Bool.or_eq_false_iff] at h
  simpa using h.1

theorem visitAll_cons (registered : UserControls) (node : Node) (nodes : List Node) :
    site.visitAll registered (node :: nodes) =
      let here := site.visit registered node
      let others := site.visitAll (UserControls.extend registered here.2.registrations) nodes
      (here.1.toList ++ others.1, here.2 ++ others.2) := by
  rw [visitAll]

section Element

variable {tag : Tag} {closing : Closing} {children : List Node}

theorem visits_of_not_hides (h : site.visits around = true)
    (hshows : (site.resolve ⟨tag, registered⟩).hides tag = false) :
    site.visits (⟨tag, registered⟩ :: around) = true := by
  simp [visits, hides, hshows, h]

/-- A server tag that assigns no property comes to what it denotes, and so does what is inside it. -/
theorem Accounts.server {controls inner : List Control} {found within : Findings}
    (h : site.visits around = true) (hassigned : site.assigned? around tag = none)
    (hserver : tag.isServer = true)
    (hinner : site.Accounts (site.spotsAll (⟨tag, registered⟩ :: around) registered children) inner
      within)
    (houtcomes : outcomesOf controls found.templates found.scripts found.errors =
      {site.outcome ⟨tag, registered⟩ closing children} +
        outcomesOf inner within.templates within.scripts within.errors)
    (hregistrations : found.registrations = within.registrations) :
    site.Accounts (site.spots around registered (.element tag closing children)) controls found := by
  refine .element h hinner ?_ hregistrations
  simp [houtcomes, outcome?, hassigned, hserver]

/-- One that hides what is inside it is all there is to account for. -/
theorem accounts_hiding {controls : List Control} {found : Findings}
    (h : site.visits around = true) (hassigned : site.assigned? around tag = none)
    (hserver : tag.isServer = true) (hhides : (site.resolve ⟨tag, registered⟩).hides tag = true)
    (houtcomes : outcomesOf controls found.templates found.scripts found.errors =
      {site.outcome ⟨tag, registered⟩ closing children})
    (hregistrations : found.registrations = []) :
    site.Accounts (site.spots around registered (.element tag closing children)) controls found := by
  have hhidden : site.visits (⟨tag, registered⟩ :: around) = false := by
    simp [visits, hides, hserver, hassigned, hhides]
  refine .server h hassigned hserver (accounts_hidden hhidden children) ?_ hregistrations
  rw [houtcomes]
  simp [outcomesOf, Control.outcomesAll]

/-- A server tag that comes to a control, which holds what is inside the tag. -/
theorem Accounts.typed {head : ControlHead} {controls : List Control} {found : Findings}
    (properties : List Control) (h : site.visits around = true) (hassigned : site.assigned? around tag = none)
    (hserver : tag.isServer = true)
    (hinner : site.Accounts (site.spotsAll (⟨tag, registered⟩ :: around) registered children)
      (properties ++ controls) found)
    (hcomes : site.outcome ⟨tag, registered⟩ closing children = .control head) :
    site.Accounts (site.spots around registered (.element tag closing children))
      [.typed head properties (Site.gather false controls).1]
      (found ++ (Site.gather false controls).2) := by
  refine .server h hassigned hserver (hinner.gather properties false) ?_ rfl
  simp [hcomes, outcomesOf, Control.outcomesAll, Control.outcomes]

end Element

mutual

/-- The visit of a node accounts for the node and all inside it. -/
theorem visit_accounts {around : List Around} (h : site.visits around = true)
    (registered : List Registration) (node : Node)
    (hmember : ∀ tag closing children, node = .element tag closing children →
      site.assigned? around tag = none) :
    site.Accounts (site.spots around registered node)
      (site.visit (UserControls.extend .empty registered) node).1.toList
      (site.visit (UserControls.extend .empty registered) node).2 := by
  cases node with
  | directive d =>
    rw [visit, spots]
    exact .leaf h rfl (by simp [outcomesOf, Control.outcomesAll, directive]) rfl
  | literal place =>
    rw [visit, spots]
    exact .leaf h rfl (by simp [outcomesOf, Control.outcomesAll, Control.outcomes, literal]) rfl
  | code kind body place =>
    rw [spots]
    cases kind with
    | encode =>
      rw [visit]
      exact .leaf h rfl (by simp [outcomesOf, Control.outcomesAll, Control.outcomes]) rfl
    | _ =>
      rw [visit]
      · exact .leaf h rfl (by simp [outcomesOf, Control.outcomesAll]) rfl
      · simp
  | binding expression encode place =>
    rw [visit, spots]
    exact .leaf h rfl (by simp [outcomesOf, Control.outcomesAll]) rfl
  | element tag closing children =>
    have hassigned := hmember tag closing children rfl
    rw [visit]
    by_cases hserver : (!tag.isServer) = true
    · -- plain markup hides nothing and comes to nothing itself
      rw [if_pos hserver]
      have hplain : tag.isServer = false := by simpa using hserver
      have hvisits : site.visits (⟨tag, registered⟩ :: around) = true := by
        simp [visits, hides, hplain, h]
      have hinfo : site.controlInfo? ⟨tag, registered⟩ = none := controlInfo?_of_not_server hplain
      have hall := visitAll_accounts hvisits (assigned?_of_controlInfo? hinfo) registered children
      have houtcomes : Control.outcomesAll (site.literal tag.opening ::
          (site.visitAll (UserControls.extend .empty registered) children).1 ++
          site.closingLiteral tag closing (Node.element tag closing children).stop) =
          Control.outcomesAll (site.visitAll (UserControls.extend .empty registered) children).1 := by
        simp [outcomes_closingLiteral, Control.outcomesAll, Control.outcomes, literal]
      refine .element h ((hall.of_outcomes houtcomes).gather [] false) ?_ rfl
      simp [outcome?, hassigned, hplain, outcomesOf, Control.outcomesAll, Control.outcomes]
      rfl
    · rw [if_neg hserver]
      have hserver : tag.isServer = true := by simpa using hserver
      -- what is inside an element that does not hide it: one whose sub-elements assign nothing, and any
      have hall : (site.resolve ⟨tag, registered⟩).hides tag = false →
          site.controlInfo? ⟨tag, registered⟩ = none →
          site.Accounts (site.spotsAll (⟨tag, registered⟩ :: around) registered children)
            (site.visitAll (UserControls.extend .empty registered) children).1
            (site.visitAll (UserControls.extend .empty registered) children).2 :=
        fun hshows hinfo => visitAll_accounts (visits_of_not_hides h hshows)
          (assigned?_of_controlInfo? hinfo) registered children
      have hmembers := fun hshows : (site.resolve ⟨tag, registered⟩).hides tag = false =>
        visitMembers_accounts (visits_of_not_hides h hshows) registered children
      cases hof : Resolution.of site.lookup (UserControls.extend .empty registered) tag with
      | content =>
        have hresolve : site.resolve ⟨tag, registered⟩ = .content := hof
        dsimp only
        split
        · next hgiven =>
          have hgiven : tag.placeholder? = none := hgiven
          refine accounts_hiding h hassigned hserver (by simp [hresolve, Resolution.hides, hgiven]) ?_ rfl
          simp [outcome, hresolve, hgiven, outcomesOf, Control.outcomesAll]
        · next placeholder hgiven =>
          have hgiven : tag.placeholder? = some placeholder := hgiven
          have hinside := hall (by simp [hresolve, Resolution.hides, hgiven])
            (by simp [controlInfo?, hresolve])
          refine .server h hassigned hserver (hinside.gather [] false) ?_ rfl
          simp [outcome, hresolve, hgiven, outcomesOf, Control.outcomesAll, Template.outcomes]
      | placeholder id =>
        have hresolve : site.resolve ⟨tag, registered⟩ = .placeholder id := hof
        have hinfo : site.controlInfo? ⟨tag, registered⟩ = site.info? tag := by
          simp only [controlInfo?, hresolve]
        have hcomes : site.outcome ⟨tag, registered⟩ closing children =
            .control (site.head tag (Node.span (.element tag closing children)) placeholderType
              (site.info? tag)) := by
          simp only [outcome, hresolve]
        have hinside := hmembers (by simp [hresolve, Resolution.hides])
        rw [hinfo] at hinside
        have htyped := hinside.typed _ h hassigned hserver hcomes
        exact ⟨htyped.outcomes, htyped.registrations⟩
      | known about =>
        have hresolve : site.resolve ⟨tag, registered⟩ = .known about := hof
        have hinfo : site.controlInfo? ⟨tag, registered⟩ = some about := by
          simp only [controlInfo?, hresolve]
        have hinside := hmembers (by simp [hresolve, Resolution.hides])
        rw [hinfo] at hinside
        exact hinside.typed _ h hassigned hserver (by simp only [outcome, hresolve])
      | user typeName =>
        have hresolve : site.resolve ⟨tag, registered⟩ = .user typeName := hof
        have hinside := hall (by simp [hresolve, Resolution.hides]) (by simp [controlInfo?, hresolve])
        exact hinside.typed [] h hassigned hserver (by simp only [outcome, hresolve])
      | html typeName =>
        have hresolve : site.resolve ⟨tag, registered⟩ = .html typeName := hof
        have hinside := hall (by simp [hresolve, Resolution.hides]) (by simp [controlInfo?, hresolve])
        exact hinside.typed [] h hassigned hserver (by simp only [outcome, hresolve])
      | script =>
        have hresolve : site.resolve ⟨tag, registered⟩ = .script := hof
        refine accounts_hiding h hassigned hserver (by simp [hresolve, Resolution.hides]) ?_ rfl
        simp [outcome, hresolve, outcomesOf, Control.outcomesAll]
      | unknown =>
        have hresolve : site.resolve ⟨tag, registered⟩ = .unknown := hof
        refine accounts_hiding h hassigned hserver (by simp [hresolve, Resolution.hides]) ?_ rfl
        simp [outcome, hresolve, outcomesOf, Control.outcomesAll]

theorem visitAll_accounts {around : List Around} (h : site.visits around = true)
    (hnone : ∀ tag, site.assigned? around tag = none) (registered : List Registration)
    (nodes : List Node) :
    site.Accounts (site.spotsAll around registered nodes)
      (site.visitAll (UserControls.extend .empty registered) nodes).1
      (site.visitAll (UserControls.extend .empty registered) nodes).2 := by
  cases nodes with
  | nil =>
    rw [visitAll, spotsAll]
    exact .nil
  | cons node nodes =>
    have hnode := visit_accounts h registered node fun tag _ _ _ => hnone tag
    rw [visitAll_cons, spotsAll]
    simp only [← hnode.registrations, ← UserControls.extend_append]
    exact hnode.append (visitAll_accounts h hnone _ nodes)

theorem visitMembers_accounts {e : Around} {around : List Around}
    (h : site.visits (e :: around) = true) (registered : List Registration) (nodes : List Node) :
    site.Accounts (site.spotsAll (e :: around) registered nodes)
      ((site.visitMembers (UserControls.extend .empty registered) (site.controlInfo? e) nodes).1 ++
        (site.visitMembers (UserControls.extend .empty registered) (site.controlInfo? e) nodes).2.1)
      (site.visitMembers (UserControls.extend .empty registered) (site.controlInfo? e) nodes).2.2 := by
  cases nodes with
  | nil =>
    rw [visitMembers, spotsAll]
    exact .nil
  | cons node nodes =>
    have hother : (∀ tag closing children, node = .element tag closing children →
        promoted? (site.controlInfo? e) tag = none) →
        site.Accounts (site.spotsAll (e :: around) registered (node :: nodes))
          ((site.visitMembers (UserControls.extend .empty registered) (site.controlInfo? e)
            (node :: nodes)).1 ++ (site.visitMembers (UserControls.extend .empty registered)
            (site.controlInfo? e) (node :: nodes)).2.1)
          (site.visitMembers (UserControls.extend .empty registered) (site.controlInfo? e)
            (node :: nodes)).2.2 := by
      intro hnone
      have hvisit := visit_accounts h registered node hnone
      rw [visitMembers_other _ _ hnone, spotsAll]
      simp only [← hvisit.registrations, ← UserControls.extend_append]
      exact (hvisit.append (visitMembers_accounts h _ nodes)).swap
    cases node with
    | element tag closing children =>
      cases hpromoted : promoted? (site.controlInfo? e) tag with
      | none => exact hother fun _ _ _ he => by cases he; exact hpromoted
      | some dataType =>
        have hassigned : site.assigned? (e :: around) tag = some dataType := hpromoted
        have hvisits : site.visits (⟨tag, registered⟩ :: e :: around) = true := by
          simp [visits, hides, hassigned] at h ⊢
          exact h
        have hinfo : site.controlInfo? ⟨tag, registered⟩ = none :=
          controlInfo?_of_scope? (scope?_of_promoted? hpromoted)
        have hall := visitAll_accounts hvisits (assigned?_of_controlInfo? hinfo) registered children
        -- the property is the outcome of the element, its value holds what is inside it
        have hproperty : site.Accounts
            (site.spots (e :: around) registered (.element tag closing children))
            [.property tag.localName (.typed (site.head tag (Node.span (.element tag closing children))
              (propertyType tag dataType) none) [] (gather (dataType.kind != .template)
                (site.visitAll (UserControls.extend .empty registered) children).1).1)
              (site.locate (Node.span (.element tag closing children)))]
            ((site.visitAll (UserControls.extend .empty registered) children).2 ++
              (gather (dataType.kind != .template)
                (site.visitAll (UserControls.extend .empty registered) children).1).2) := by
          refine .element h (hall.gather [] (dataType.kind != .template)) ?_ rfl
          simp [outcome?, hassigned, outcomesOf, Control.outcomesAll, Control.outcomes]
        rw [visitMembers_promoted _ _ hpromoted, spotsAll]
        simp only [← hproperty.registrations, ← UserControls.extend_append]
        exact hproperty.append (visitMembers_accounts h _ nodes)
    | _ => exact hother (by simp)

end

mutual

/-- Every node of a tree has its place, and only one. -/
theorem spots_perm (site : Site) (around : List Around) (registered : List Registration)
    (node : Node) : ((site.spots around registered node).map (·.node)).Perm node.within := by
  cases node with
  | element tag closing children =>
    have hchildren := spotsAll_perm site (⟨tag, registered⟩ :: around) registered children
    rw [spots, List.map_cons, Node.within]
    exact (hchildren.cons _).trans (List.perm_append_singleton _ _).symm
  | _ => simp [spots, Node.within]

theorem spotsAll_perm (site : Site) (around : List Around) (registered : List Registration)
    (nodes : List Node) :
    ((site.spotsAll around registered nodes).map (·.node)).Perm (Node.withinAll nodes) := by
  cases nodes with
  | nil => simp [spotsAll, Node.withinAll]
  | cons node nodes =>
    rw [spotsAll, List.map_append, Node.withinAll]
    exact (spots_perm site around registered node).append (spotsAll_perm site around _ nodes)

end

end Site

namespace Page

def spots (path source : Text) (lookup : Lookup) : List Spot :=
  (site path source lookup).spotsAll [] [] (parse source).nodes

/-- The controls, properties, templates and scripts of a page, and the errors beside those of its
markup, are what its visited nodes come to: each server tag and each assigned property to one thing, and
every other node to nothing. -/
theorem read_outcomes (path source : Text) (lookup : Lookup) :
    ((spots path source lookup).map (·.node)).Perm (Node.withinAll (parse source).nodes) ∧
    ∃ page errors, read path source lookup = .ok page ∧
      page.errors.Perm (errorsOf (site path source lookup) (parse source).problems ++ errors) ∧
      outcomesOf page.root page.templates page.scripts errors =
        (((site path source lookup).visited (spots path source lookup)).filterMap
          (site path source lookup).outcome? : List PagePart) := by
  have hall : (site path source lookup).Accounts (spots path source lookup) _ _ :=
    Site.visitAll_accounts rfl (fun _ => rfl) [] (parse source).nodes
  have hroot := hall.of_outcomes (Site.outcomes_gather false _)
  exact ⟨Site.spotsAll_perm _ _ _ _, _, _, read_eq_ok path source lookup, List.mergeSort_perm _ _,
    hroot.outcomes⟩

end Page

end ServerPages
