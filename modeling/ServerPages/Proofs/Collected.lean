import ServerPages.Proofs.Extent
import ServerPages.Proofs.Outcomes

/-! What is collected beside the controls of a page comes in document order. Whatever a tag denotes, a
visited node adds what it is itself before what is found inside it, and siblings are visited one after
another; so a content block stands before the blocks nested in it, also where these are inside controls,
plain markup or the values of properties. Only what an element hides is missing. -/

namespace ServerPages

namespace Findings

def join (founds : List Findings) : Findings := founds.foldr (· ++ ·) {}

def settled (found : Findings) : Findings := { found with mismatches := [] }

theorem append_nil (a : Findings) : a ++ ({} : Findings) = a := by
  show Findings.append a {} = a
  simp [Findings.append]

theorem nil_append (a : Findings) : ({} : Findings) ++ a = a := rfl

theorem append_assoc (a b c : Findings) : a ++ b ++ c = a ++ (b ++ c) := by
  show Findings.append (Findings.append a b) c = Findings.append a (Findings.append b c)
  simp [Findings.append]

theorem settled_append (a b : Findings) : (a ++ b).settled = a.settled ++ b.settled := rfl

theorem join_cons (a : Findings) (founds : List Findings) : join (a :: founds) = a ++ join founds := rfl

theorem join_append (as bs : List Findings) : join (as ++ bs) = join as ++ join bs := by
  induction as with
  | nil => rfl
  | cons a as ih => rw [List.cons_append, join_cons, join_cons, ih, append_assoc]

/-- A part that is appended part by part is, of many findings, the parts one after another. -/
theorem part_join {α : Type} (part : Findings → List α) (hnil : part {} = [])
    (happend : ∀ a b, part (a ++ b) = part a ++ part b) (founds : List Findings) :
    part (join founds) = founds.flatMap part := by
  induction founds with
  | nil => exact hnil
  | cons a founds ih => rw [join_cons, happend, ih, List.flatMap_cons]

end Findings

namespace Tag

def isContent (tag : Tag) : Bool := tag.scope?.isSome && tag.isNamed "Content".toList

def holderId? (tag : Tag) : Option Text :=
  if tag.scope?.isSome && tag.isNamed "ContentPlaceHolder".toList then tag.id? else none

def isScript (tag : Tag) : Bool :=
  tag.scope?.isNone && tag.runatServer && tag.isNamed "script".toList

theorem isNamed_unique {tag : Tag} {a b : Text} (ha : tag.isNamed a = true) (hb : tag.isNamed b = true) :
    a.lower = b.lower := by
  simp only [isNamed, Text.same, beq_iff_eq] at ha hb
  rw [← ha, hb]

theorem holderId?_of_isContent {tag : Tag} (h : tag.isContent = true) : tag.holderId? = none := by
  rw [isContent, Bool.and_eq_true] at h
  refine if_neg fun hholder => ?_
  rw [Bool.and_eq_true] at hholder
  exact absurd (isNamed_unique h.2 hholder.2) (by decide)

end Tag

/-- What the denotation of a server tag says of it. -/
theorem Resolution.of_cases (lookup : Lookup) (registered : UserControls) {tag : Tag}
    (h : tag.isServer = true) :
    match Resolution.of lookup registered tag with
    | .content => tag.isContent = true ∧ tag.holderId? = none ∧ tag.isScript = false
    | .placeholder id => tag.isContent = false ∧ tag.holderId? = some id ∧ tag.isScript = false
    | .script => tag.isContent = false ∧ tag.holderId? = none ∧ tag.isScript = true
    | .known _ | .user _ | .html _ | .unknown =>
      tag.isContent = false ∧ tag.holderId? = none ∧ tag.isScript = false := by
  have hexclusive := tag.holderId?_of_isContent
  unfold Resolution.of
  unfold Tag.isContent Tag.holderId? Tag.isScript at *
  unfold Tag.isServer at h
  -- of the tag only these answers matter, and of the two names that at most one is its own
  generalize tag.isNamed "script".toList = isScript
  generalize tag.isNamed "Content".toList = isContent at *
  generalize tag.isNamed "ContentPlaceHolder".toList = isPlaceholder at *
  generalize tag.attribute? "type".toList = inputType
  generalize tag.scope? = scope? at *
  cases scope? with
  | none =>
    have hruns : tag.runatServer = true := h
    rw [hruns]
    cases isScript <;> exact ⟨rfl, rfl, rfl⟩
  | some scope =>
    cases isContent with
    | true => exact ⟨rfl, hexclusive rfl, rfl⟩
    | false =>
      simp only [Bool.false_eq_true, if_false, Option.isSome_some, Bool.true_and]
      cases hid : if isPlaceholder then tag.id? else none with
      | some id => exact ⟨trivial, rfl, rfl⟩
      | none =>
        cases lookup scope tag.localName with
        | some info => exact ⟨trivial, rfl, rfl⟩
        | none =>
          cases Registered.get? registered scope tag.localName with
          | some typeName => exact ⟨trivial, rfl, rfl⟩
          | none => exact ⟨trivial, rfl, rfl⟩

def Node.directive? : Node → Option Directive
  | .directive d => some d
  | _ => none

def Spot.holderId? (spot : Spot) : Option Text :=
  match spot.node with
  | .element tag _ _ => tag.holderId?
  | _ => none

namespace Site

variable (site : Site)

/-- The template of a content block that names a placeholder. -/
def template? (spot : Spot) : Option Template :=
  match spot.node with
  | .element tag closing children =>
    if tag.isContent then
      let inside := site.visitAll (UserControls.extend .empty spot.registered) children
      tag.placeholder?.map fun placeholder =>
        ⟨tag.id?, placeholder, (gather false inside.1).1,
          site.locate (Node.span (.element tag closing children))⟩
    else none
  | _ => none

/-- The script of an element that runs on the server and assigns no property. -/
def script? (spot : Spot) : Option Script :=
  match spot.node with
  | .element tag closing children =>
    if tag.isScript && (site.assigned? spot.around tag).isNone then
      some (site.script children (Node.span (.element tag closing children)))
    else none
  | _ => none

def directive? (spot : Spot) : Option PageDirective :=
  spot.node.directive?.map fun d =>
    ⟨d.name, d.attributes.map fun a => (a.name, a.value.asText), site.locate d.place.span⟩

def error? (spot : Spot) : Option PageError :=
  match site.outcome? spot with
  | some (.error error) => some error
  | _ => none

/-- What a visited node adds to the findings itself, apart from what is inside it. -/
def own (spot : Spot) : Findings :=
  { errors := (site.error? spot).toList
    templates := (site.template? spot).toList
    scripts := (site.script? spot).toList
    placeholders := spot.holderId?.toList
    directives := (site.directive? spot).toList
    registrations := site.registrations spot.node }

def found (spots : List Spot) : Findings := Findings.join ((site.visited spots).map site.own)

end Site

namespace Site

variable {site : Site} {around : List Around} {registered : List Registration}

theorem found_append (as bs : List Spot) : site.found (as ++ bs) = site.found as ++ site.found bs := by
  rw [found, visited_append, List.map_append, Findings.join_append]
  rfl

theorem found_cons_of_visits {spot : Spot} (h : site.visits spot.around = true) (spots : List Spot) :
    site.found (spot :: spots) = site.own spot ++ site.found spots := by
  rw [found, visited, List.filter_cons_of_pos (by simp [h])]
  rfl

theorem found_singleton {spot : Spot} (h : site.visits spot.around = true) :
    site.found [spot] = site.own spot := by
  rw [found_cons_of_visits h]
  exact Findings.append_nil _

theorem scope?_of_skipped {tag : Tag}
    (h : ((site.assigned? around tag).isSome || !tag.isServer) = true) : tag.scope? = none := by
  cases hassigned : site.assigned? around tag with
  | some dataType =>
    cases around with
    | nil => cases hassigned
    | cons e outer => exact scope?_of_promoted? hassigned
  | none =>
    have hplain : tag.isServer = false := by simpa [hassigned] using h
    rw [Tag.isServer, Bool.or_eq_false_iff] at hplain
    simpa using hplain.1

theorem settled_append_gather (found : Findings) (drop : Bool) (controls : List Control) :
    (found ++ (gather drop controls).2).settled = found.settled := by
  rw [Findings.settled_append]
  exact Findings.append_nil _

theorem visitMembers_none (registered : UserControls) (nodes : List Node) :
    site.visitMembers registered none nodes = ([], site.visitAll registered nodes) := by
  induction nodes generalizing registered with
  | nil => rw [visitMembers, visitAll]
  | cons node nodes ih =>
    rw [visitMembers_other _ _ fun _ _ _ _ => rfl, visitAll_cons]
    simp only [ih]

section Element

variable {tag : Tag} {closing : Closing} {children : List Node}

theorem own_of_skipped (h : ((site.assigned? around tag).isSome || !tag.isServer) = true) :
    site.own ⟨around, registered, .element tag closing children⟩ = {} := by
  have hscope := scope?_of_skipped h
  have hcontent : tag.isContent = false := by simp [Tag.isContent, hscope]
  have hholder : tag.holderId? = none := by simp [Tag.holderId?, hscope]
  cases hassigned : site.assigned? around tag with
  | some dataType =>
    simp [own, error?, outcome?, template?, script?, Spot.holderId?, directive?, Node.directive?,
      registrations, hassigned, hcontent, hholder]
  | none =>
    have hplain : tag.isServer = false := by simpa [hassigned] using h
    have hscript : tag.isScript = false := by
      rw [Tag.isServer, hscope] at hplain
      simp [Tag.isScript, show tag.runatServer = false from hplain]
    simp [own, error?, outcome?, template?, script?, Spot.holderId?, directive?, Node.directive?,
      registrations, hassigned, hcontent, hholder, hscript, hplain]

theorem own_of_server (hassigned : site.assigned? around tag = none) (hserver : tag.isServer = true) :
    site.own ⟨around, registered, .element tag closing children⟩ =
      match site.resolve ⟨tag, registered⟩ with
      | .content =>
        match tag.placeholder? with
        | none => { errors := [site.missingPlaceholder tag] }
        | some placeholder =>
          let inside := site.visitAll (UserControls.extend .empty registered) children
          { templates := [⟨tag.id?, placeholder, (gather false inside.1).1,
              site.locate (Node.span (.element tag closing children))⟩] }
      | .placeholder id => { placeholders := [id] }
      | .script =>
        { scripts := [site.script children (Node.span (.element tag closing children))] }
      | .unknown => { errors := [site.unknownControl tag] }
      | .known _ | .user _ | .html _ => {} := by
  have hcases := Resolution.of_cases site.lookup (UserControls.extend .empty registered) hserver
  have hresolve : site.resolve ⟨tag, registered⟩ =
      Resolution.of site.lookup (UserControls.extend .empty registered) tag := rfl
  simp only [own, error?, outcome?, outcome, template?, script?, Spot.holderId?, directive?,
    Node.directive?, registrations, hassigned, hserver, hresolve]
  split at hcases <;> next hof =>
    simp only [hcases, hof]
    cases tag.placeholder? <;> rfl

/-- What is found in an element is what it adds itself, and behind that what is found inside it. -/
theorem settled_visit (hassigned : site.assigned? around tag = none) :
    (site.visit (UserControls.extend .empty registered) (.element tag closing children)).2.settled =
      site.own ⟨around, registered, .element tag closing children⟩ ++
        if site.hides ⟨tag, registered⟩ around then {}
        else (site.visitMembers (UserControls.extend .empty registered)
          (site.controlInfo? ⟨tag, registered⟩) children).2.2.settled := by
  cases hserver : tag.isServer with
  | false =>
    rw [own_of_skipped (by simp [hserver]), controlInfo?_of_not_server hserver, visitMembers_none,
      Findings.nil_append, visit, if_pos (by simp [hserver]), settled_append_gather]
    simp [hides, hserver]
  | true =>
    have hresolve : site.resolve ⟨tag, registered⟩ =
        Resolution.of site.lookup (UserControls.extend .empty registered) tag := rfl
    have hgiven : tag.given? "ContentPlaceHolderID".toList = tag.placeholder? := rfl
    rw [own_of_server hassigned hserver, visit, if_neg (by simp [hserver])]
    simp only [hides, hserver, hassigned, controlInfo?, hresolve, hgiven]
    cases hof : Resolution.of site.lookup (UserControls.extend .empty registered) tag with
    | content =>
      cases hplaceholder : tag.placeholder? with
      | none => simp [Resolution.hides, hplaceholder, Findings.append_nil, Findings.settled]
      | some placeholder =>
        simp [Resolution.hides, hplaceholder, settled_append_gather, visitMembers_none]
        rfl
    | placeholder id =>
      simp [Resolution.hides, settled_append_gather]
      rfl
    | known info => simp [Resolution.hides, settled_append_gather, Findings.nil_append]
    | user typeName =>
      simp [Resolution.hides, settled_append_gather, Findings.nil_append, visitMembers_none]
    | html typeName =>
      simp [Resolution.hides, settled_append_gather, Findings.nil_append, visitMembers_none]
    | script => rfl
    | unknown => rfl

end Element

def around? (site : Site) (around : List Around) : Option ControlInfo :=
  around.head?.bind site.controlInfo?

theorem assigned?_eq (around : List Around) (tag : Tag) :
    site.assigned? around tag = promoted? (site.around? around) tag := by
  cases around <;> rfl

theorem registrations_found (spots : List Spot) :
    (site.found spots).registrations =
      (site.visited spots).flatMap (site.registrations ·.node) := by
  rw [found, Findings.part_join Findings.registrations rfl fun _ _ => rfl, List.flatMap_map]
  rfl

theorem settled_append_members {here : Findings} {info : Option ControlInfo} {node : Node}
    {nodes : List Node} (hhere : here.settled = site.found (site.spots around registered node))
    (hrest : ∀ registered, (site.visitMembers (UserControls.extend .empty registered) info
      nodes).2.2.settled = site.found (site.spotsAll around registered nodes)) :
    (here ++ (site.visitMembers (UserControls.extend (UserControls.extend .empty registered)
        here.registrations) info nodes).2.2).settled =
      site.found (site.spotsAll around registered (node :: nodes)) := by
  have hregistrations : here.registrations =
      (site.visited (site.spots around registered node)).flatMap (site.registrations ·.node) := by
    rw [← registrations_found, ← hhere]
    rfl
  rw [spotsAll, found_append, ← hregistrations, ← UserControls.extend_append,
    Findings.settled_append, hhere, hrest]

mutual

/-- What is found in a node is what the visited nodes in it add, in document order. -/
theorem visit_found {around : List Around} (h : site.visits around = true)
    (registered : List Registration) (node : Node)
    (hmember : ∀ tag closing children, node = .element tag closing children →
      site.assigned? around tag = none) :
    (site.visit (UserControls.extend .empty registered) node).2.settled =
      site.found (site.spots around registered node) := by
  cases node with
  | element tag closing children =>
    rw [settled_visit (hmember tag closing children rfl), spots, found_cons_of_visits h]
    congr 1
    cases hhides : site.hides ⟨tag, registered⟩ around with
    | true =>
      have hhidden : site.visits (⟨tag, registered⟩ :: around) = false := by simp [visits, hhides]
      rw [found, visited_spotsAll_hidden hhidden]
      rfl
    | false =>
      have hvisits : site.visits (⟨tag, registered⟩ :: around) = true := by simp [visits, hhides, h]
      exact visitMembers_found hvisits registered children
  | code kind body place =>
    rw [spots, found_singleton h]
    cases kind with
    | encode => rw [visit]; rfl
    | _ => rw [visit] <;> first | rfl | simp
  | _ =>
    rw [spots, found_singleton h, visit]
    rfl

theorem visitMembers_found {around : List Around} (h : site.visits around = true)
    (registered : List Registration) (nodes : List Node) :
    (site.visitMembers (UserControls.extend .empty registered) (site.around? around)
        nodes).2.2.settled =
      site.found (site.spotsAll around registered nodes) := by
  cases nodes with
  | nil =>
    rw [visitMembers, spotsAll]
    rfl
  | cons node nodes =>
    have hrest := fun registered => visitMembers_found h registered nodes
    -- a member that assigns a property is visited for what is inside it, any other as a node
    by_cases hnode : ∃ tag closing children dataType, node = .element tag closing children ∧
        promoted? (site.around? around) tag = some dataType
    · obtain ⟨tag, closing, children, dataType, rfl, hpromoted⟩ := hnode
      have hassigned : site.assigned? around tag = some dataType :=
        (assigned?_eq around tag).trans hpromoted
      have hvisits : site.visits (⟨tag, registered⟩ :: around) = true := by
        simp [visits, hides, hassigned, h]
      have hinfo : site.around? (⟨tag, registered⟩ :: around) = none :=
        controlInfo?_of_scope? (scope?_of_promoted? hpromoted)
      have hinside := visitMembers_found hvisits registered children
      rw [hinfo, visitMembers_none] at hinside
      rw [visitMembers_promoted _ _ hpromoted]
      refine settled_append_members ?_ hrest
      rw [settled_append_gather, hinside, spots, found_cons_of_visits h,
        own_of_skipped (by simp [hassigned]), Findings.nil_append]
    · have hnone : ∀ tag closing children, node = .element tag closing children →
          promoted? (site.around? around) tag = none := by
        intro tag closing children he
        cases hpromoted : promoted? (site.around? around) tag with
        | none => rfl
        | some dataType => exact absurd ⟨tag, closing, children, dataType, he, hpromoted⟩ hnode
      have hvisit := visit_found h registered node fun tag closing children he =>
        (assigned?_eq around tag).trans (hnone tag closing children he)
      rw [visitMembers_other _ _ hnone]
      exact settled_append_members hvisit hrest

end

mutual

/-- A node comes where its first place is, and the nodes inside it come where theirs are. -/
theorem starts_sublist (around : List Around) (registered : List Registration) (node : Node) :
    ((site.spots around registered node).map (·.node.start)).Sublist (node.pieces.map (·.offset)) := by
  cases node with
  | element tag closing children =>
    rw [spots, Node.pieces, List.map_cons, List.map_cons, List.map_append]
    exact ((starts_sublistAll _ registered children).trans (List.sublist_append_left _ _)).cons_cons _
  | _ =>
    rw [spots, Node.pieces]
    exact List.Sublist.refl _

theorem starts_sublistAll (around : List Around) (registered : List Registration)
    (nodes : List Node) : ((site.spotsAll around registered nodes).map (·.node.start)).Sublist
      ((Node.piecesAll nodes).map (·.offset)) := by
  cases nodes with
  | nil =>
    rw [spotsAll]
    exact List.nil_sublist _
  | cons node nodes =>
    rw [spotsAll, Node.piecesAll, List.map_append, List.map_append]
    exact (starts_sublist around registered node).append (starts_sublistAll around _ nodes)

end

end Site

namespace Page

/-- The nodes of a page start one behind the other. -/
theorem starts_increasing (path source : Text) (lookup : Lookup) :
    ((spots path source lookup).map (·.node.start)).Pairwise (· < ·) := by
  refine List.Pairwise.sublist (Site.starts_sublistAll [] [] (parse source).nodes) ?_
  rw [List.pairwise_map]
  refine (pairwise_pieces_parse source).imp_of_mem fun {p q} hp _ h => ?_
  have hlen := Text.byteLength_pos (text_ne_nil_of_mem_pieces hp)
  simp only [Fragment.span] at h
  omega

theorem mem_within_of_visited {path source : Text} {lookup : Lookup} {spot : Spot}
    (h : spot ∈ (site path source lookup).visited (spots path source lookup)) :
    spot.node ∈ Node.withinAll (parse source).nodes :=
  (Site.spotsAll_perm _ _ _ _).subset (List.mem_map_of_mem (List.mem_of_mem_filter h))

theorem settled_eq_found (path source : Text) (lookup : Lookup) :
    ((site path source lookup).visitAll .empty (parse source).nodes).2.settled =
      (site path source lookup).found (spots path source lookup) := by
  have h : ((site path source lookup).visitMembers .empty none (parse source).nodes).2.2.settled =
      (site path source lookup).found (spots path source lookup) :=
    Site.visitMembers_found (rfl : (site path source lookup).visits [] = true) [] _
  rwa [Site.visitMembers_none] at h

/-- A part of the findings is what the visited nodes add to it, one after another. -/
theorem part_eq {α : Type} (part : Findings → List α) (hnil : part {} = [])
    (happend : ∀ a b, part (a ++ b) = part a ++ part b) (hsettled : ∀ a, part a.settled = part a)
    (path source : Text) (lookup : Lookup) :
    part ((site path source lookup).visitAll .empty (parse source).nodes).2 =
      ((site path source lookup).visited (spots path source lookup)).flatMap
        fun spot => part ((site path source lookup).own spot) := by
  rw [← hsettled, settled_eq_found, Site.found, Findings.part_join part hnil happend,
    List.flatMap_map]

/-- The templates of a page are its visited content blocks that name a placeholder, its placeholders the
ids of the visited placeholders, its scripts the visited scripts that assign no property. Each list is in
the order in which the nodes start. -/
theorem read_collected (path source : Text) (lookup : Lookup) :
    ((spots path source lookup).map (·.node)).Perm (Node.withinAll (parse source).nodes) ∧
    ((spots path source lookup).map (·.node.start)).Pairwise (· < ·) ∧
    ∃ page, read path source lookup = .ok page ∧
      page.templates = ((site path source lookup).visited (spots path source lookup)).filterMap
        (site path source lookup).template? ∧
      page.placeholders = ((site path source lookup).visited (spots path source lookup)).filterMap
        Spot.holderId? ∧
      page.scripts = ((site path source lookup).visited (spots path source lookup)).filterMap
        (site path source lookup).script? := by
  refine ⟨Site.spotsAll_perm _ _ _ _, starts_increasing path source lookup, _,
    read_eq_ok path source lookup, ?_, ?_, ?_⟩
  · rw [List.filterMap_eq_flatMap_toList]
    exact part_eq Findings.templates rfl (fun _ _ => rfl) (fun _ => rfl) path source lookup
  · rw [List.filterMap_eq_flatMap_toList]
    exact part_eq Findings.placeholders rfl (fun _ _ => rfl) (fun _ => rfl) path source lookup
  · rw [List.filterMap_eq_flatMap_toList]
    exact part_eq Findings.scripts rfl (fun _ _ => rfl) (fun _ => rfl) path source lookup

/-- The directives of a page are the visited ones in the order in which they start: all but those inside
an unknown control or a content block that names no placeholder. -/
theorem read_directives (path source : Text) (lookup : Lookup) :
    ((spots path source lookup).map (·.node)).Perm (Node.withinAll (parse source).nodes) ∧
    ((spots path source lookup).map (·.node.start)).Pairwise (· < ·) ∧
    ∃ page, read path source lookup = .ok page ∧
      page.directives = ((site path source lookup).visited (spots path source lookup)).filterMap
        (site path source lookup).directive? := by
  refine ⟨Site.spotsAll_perm _ _ _ _, starts_increasing path source lookup, _,
    read_eq_ok path source lookup, ?_⟩
  rw [List.filterMap_eq_flatMap_toList]
  exact part_eq Findings.directives rfl (fun _ _ => rfl) (fun _ => rfl) path source lookup

/-- A directive inside an unknown control is lost. -/
theorem read_directives_unknownControl :
    ∃ page, read "p".toList "<foo:Bar><%@ Import Namespace=\"System\" %></foo:Bar>".toList
        (fun _ _ => none) = .ok page ∧ page.directives = [] ∧
      (Node.withinAll (parse "<foo:Bar><%@ Import Namespace=\"System\" %></foo:Bar>".toList).nodes
        ).filterMap Node.directive? ≠ [] :=
  ⟨_, read_eq_ok _ _ _, List.isEmpty_iff.1 (by decide +kernel),
    List.isEmpty_eq_false_iff.1 (by decide +kernel)⟩

end Page

end ServerPages
