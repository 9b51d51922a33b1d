import ServerPages.Proofs.Collected
import ServerPages.Proofs.Registry

/-! What a page registers holds from there on. A tag with a prefix that nothing else explains denotes the
user control of the last directive before it that registers its prefix and name; without one it is an
error. Visiting a tree threads the registered controls through siblings, members and blocks alike, so
"before" is the order of the page. -/

namespace ServerPages

def Registration.names (entry : Registration) (scope name : Text) : Bool :=
  entry.scope.same scope && entry.name.same name

theorem UserControls.get?_extend (r : UserControls) (entries : List Registration)
    (scope name : Text) :
    Registered.get? (r.extend entries) scope name =
      match entries.reverse.find? (·.names scope name) with
      | some entry => some (userControlType entry.file)
      | none => Registered.get? r scope name := by
  have hinsert : r.extend entries = Table.insertAll r
      (entries.map fun e => ((e.scope.lower, e.name.lower), userControlType e.file)) := by
    rw [extend, Table.insertAll, List.foldl_map]
    rfl
  rw [hinsert, Registered.get?_insertAll]
  simp only [Registration.names]
  cases List.find? _ _ <;> rfl

def Node.tag? : Node → Option Tag
  | .element tag _ _ => some tag
  | _ => none

namespace Site

variable {site : Site}

/-- The last of the visited directives among some nodes that registers a prefix and a name. -/
def registering? (site : Site) (spots : List Spot) (scope name : Text) : Option Registration :=
  ((site.visited spots).flatMap (site.registrations ·.node)).reverse.find? (·.names scope name)

mutual

/-- A node stands where everything counts that the visited nodes before it register. -/
theorem registered_of_spots {around : List Around} {registered : List Registration} (node : Node)
    {before after : List Spot} {spot : Spot}
    (h : site.spots around registered node = before ++ spot :: after) :
    spot.registered = registered ++ (site.visited before).flatMap (site.registrations ·.node) := by
  cases node with
  | element tag closing children =>
    rw [spots] at h
    rcases List.cons_eq_append_iff.1 h with ⟨rfl, hfirst⟩ | ⟨front, rfl, hinside⟩
    · cases hfirst
      simp [visited]
    · rw [registered_of_spotsAll children hinside, visited, visited, List.filter_cons]
      split <;> rfl
  | _ =>
    rw [spots] at h
    rcases List.cons_eq_append_iff.1 h with ⟨rfl, hfirst⟩ | ⟨front, rfl, hinside⟩
    · cases hfirst
      simp [visited]
    · simp at hinside

theorem registered_of_spotsAll {around : List Around} {registered : List Registration}
    (nodes : List Node) {before after : List Spot} {spot : Spot}
    (h : site.spotsAll around registered nodes = before ++ spot :: after) :
    spot.registered = registered ++ (site.visited before).flatMap (site.registrations ·.node) := by
  cases nodes with
  | nil => simp [spotsAll] at h
  | cons node nodes =>
    rw [spotsAll] at h
    have hbehind : ∀ front, before = site.spots around registered node ++ front →
        site.spotsAll around (registered ++ (site.visited (site.spots around registered node)
          ).flatMap (site.registrations ·.node)) nodes = front ++ spot :: after →
        spot.registered =
          registered ++ (site.visited before).flatMap (site.registrations ·.node) := by
      rintro front rfl hrest
      rw [registered_of_spotsAll nodes hrest, visited_append, List.flatMap_append, List.append_assoc]
    -- the spot is behind those of the first node, right behind them or among them
    rcases List.append_eq_append_iff.1 h with ⟨front, hbefore, hrest⟩ | ⟨middle, hhere, hrest⟩
    · exact hbehind front hbefore hrest
    · rcases List.cons_eq_append_iff.1 hrest with ⟨rfl, hrest⟩ | ⟨behind, rfl, -⟩
      · exact hbehind [] (by simpa using hhere.symm) hrest.symm
      · exact registered_of_spots node hhere

end

end Site

/-- A tag that is no content block and no placeholder, and that is not known, denotes what is registered
for it. -/
theorem Resolution.of_unknown {lookup : Lookup} {registered : UserControls} {tag : Tag} {scope : Text}
    (hscope : tag.scope? = some scope) (hcontent : tag.isContent = false)
    (hholder : tag.holderId? = none) (hunknown : lookup scope tag.localName = none) :
    Resolution.of lookup registered tag =
      match Registered.get? registered scope tag.localName with
      | some typeName => .user typeName
      | none => .unknown := by
  unfold Tag.isContent at hcontent
  unfold Tag.holderId? at hholder
  rw [hscope] at hcontent hholder
  simp only [Option.isSome_some, Bool.true_and] at hcontent hholder
  unfold Resolution.of
  rw [hscope]
  dsimp only
  rw [if_neg (Bool.eq_false_iff.1 hcontent), hholder]
  dsimp only
  cases Registered.get? registered scope tag.localName <;> rw [hunknown]

namespace Site

variable {site : Site} {spot : Spot} {tag : Tag} {scope : Text}

theorem resolve_of_registered {before : List Spot} {registered : List Registration}
    (hregistered : registered = (site.visited before).flatMap (site.registrations ·.node))
    (hscope : tag.scope? = some scope) (hcontent : tag.isContent = false)
    (hholder : tag.holderId? = none) (hunknown : site.lookup scope tag.localName = none) :
    site.resolve ⟨tag, registered⟩ =
      match site.registering? before scope tag.localName with
      | some entry => .user (userControlType entry.file)
      | none => .unknown := by
  rw [resolve, Resolution.of_unknown hscope hcontent hholder hunknown, hregistered,
    UserControls.get?_extend, registering?]
  cases List.find? _ _ <;> rfl

/-- What a tag with a prefix comes to that only the page itself can explain. -/
def outcomeOfRegistered (site : Site) (tag : Tag) (span : Span) : Option Registration → PagePart
  | some entry => .control (site.head tag span (userControlType entry.file) none)
  | none => .error (site.unknownControl tag)

theorem outcome?_of_registered {before : List Spot}
    (hregistered : spot.registered = (site.visited before).flatMap (site.registrations ·.node))
    (htag : spot.node.tag? = some tag) (hscope : tag.scope? = some scope)
    (hcontent : tag.isContent = false) (hholder : tag.holderId? = none)
    (hunknown : site.lookup scope tag.localName = none) :
    site.outcome? spot = some (site.outcomeOfRegistered tag spot.node.span
      (site.registering? before scope tag.localName)) := by
  obtain ⟨around, registered, node⟩ := spot
  cases node with
  | element _ closing children =>
    cases htag
    have hresolve := resolve_of_registered hregistered hscope hcontent hholder hunknown
    have hassigned : site.assigned? around tag = none := by
      rw [assigned?_eq]
      cases hpromoted : promoted? (site.around? around) tag with
      | none => rfl
      | some dataType => simp [scope?_of_promoted? hpromoted] at hscope
    have hserver : tag.isServer = true := by simp [Tag.isServer, hscope]
    simp only [outcome?, hassigned, hserver, if_true, outcome, hresolve]
    cases site.registering? before scope tag.localName <;> rfl
  | _ => cases htag

end Site

namespace Page

/-- A visited tag with a prefix, no content block and no placeholder, that is not known comes to a user
control when a visited directive before it registers its prefix and name: to the control of the last such
directive. Otherwise it comes to an error. -/
theorem read_registered {path source : Text} {lookup : Lookup} {before after : List Spot}
    {spot : Spot} {tag : Tag} {scope : Text}
    (hspots : spots path source lookup = before ++ spot :: after)
    (hvisited : (site path source lookup).visits spot.around = true)
    (htag : spot.node.tag? = some tag) (hscope : tag.scope? = some scope)
    (hcontent : tag.isContent = false) (hholder : tag.holderId? = none)
    (hunknown : lookup scope tag.localName = none) :
    (∀ other ∈ before, other.node.start < spot.node.start) ∧
    (∀ other ∈ after, spot.node.start < other.node.start) ∧
    ∃ page errors, read path source lookup = .ok page ∧
      page.errors.Perm (errorsOf (site path source lookup) (parse source).problems ++ errors) ∧
      outcomesOf page.root page.templates page.scripts errors =
        (((site path source lookup).visited before).filterMap
            (site path source lookup).outcome? : Multiset PagePart) +
          {(site path source lookup).outcomeOfRegistered tag spot.node.span
            ((site path source lookup).registering? before scope tag.localName)} +
          (((site path source lookup).visited after).filterMap
            (site path source lookup).outcome? : Multiset PagePart) := by
  have hstarts := starts_increasing path source lookup
  rw [hspots, List.map_append, List.map_cons, List.pairwise_append, List.pairwise_cons] at hstarts
  have hall : (site path source lookup).Accounts (spots path source lookup) _ _ :=
    Site.visitAll_accounts rfl (fun _ => rfl) [] (parse source).nodes
  have hroot := (hall.of_outcomes (Site.outcomes_gather false _)).outcomes
  refine ⟨?_, ?_, _, _, read_eq_ok path source lookup, List.mergeSort_perm _ _, hroot.trans ?_⟩
  · intro other hother
    exact hstarts.2.2 _ (List.mem_map_of_mem hother) _ (List.mem_cons_self ..)
  · intro other hother
    exact hstarts.2.1.1 _ (List.mem_map_of_mem hother)
  · have hregistered : spot.registered = [] ++ ((site path source lookup).visited before).flatMap
        ((site path source lookup).registrations ·.node) :=
      Site.registered_of_spotsAll (parse source).nodes hspots
    have hcomes := Site.outcome?_of_registered hregistered htag hscope hcontent hholder hunknown
    have hvisits : (site path source lookup).visited (spot :: after) =
        spot :: (site path source lookup).visited after := List.filter_cons_of_pos hvisited
    rw [hspots, Site.visited_append, hvisits, List.filterMap_append, List.filterMap_cons_some hcomes,
      ← Multiset.coe_add, ← Multiset.cons_coe, ← Multiset.singleton_add, add_assoc]

/-- A prefix and a name are registered twice, in different letter case. -/
def registeredTwice : Text :=
  ("<%@Register TagPrefix=u TagName=n Src=a.ascx%>" ++
    "<%@Register TagPrefix=U TagName=N Src=b.ascx%><u:n/>").toList

def usedTag : Tag := ⟨"u:n".toList, [], ⟨92, "<u:n/>".toList⟩, false⟩

/-- The tag comes to the control that was registered last. -/
theorem read_registered_twice :
    ∃ page errors, read "p".toList registeredTwice (fun _ _ => none) = .ok page ∧
      ∃ head, .control head ∈ outcomesOf page.root page.templates page.scripts errors ∧
        head.typeName = ⟨"ASP".toList, "b_ascx".toList⟩ := by
  have hspots := (List.take_append_drop 2 (spots "p".toList registeredTwice fun _ _ => none)).symm
  rw [List.drop_eq_getElem_cons
    (show 2 < (spots "p".toList registeredTwice fun _ _ => none).length by decide +kernel)] at hspots
  have hlast : (site "p".toList registeredTwice fun _ _ => none).registering?
      ((spots "p".toList registeredTwice fun _ _ => none).take 2) "u".toList usedTag.localName =
        some ⟨"U".toList, "N".toList, "b.ascx".toList⟩ := by
    decide +kernel
  obtain ⟨-, -, page, errors, hread, -, houtcomes⟩ := read_registered hspots (by decide +kernel)
    (show _ = some usedTag by decide +kernel) (show _ = some "u".toList by decide +kernel)
    (by decide +kernel) (by decide +kernel) rfl
  have hcontrol (span : Span) : ∃ head, (site "p".toList registeredTwice fun _ _ => none
      ).outcomeOfRegistered usedTag span (some ⟨"U".toList, "N".toList, "b.ascx".toList⟩) =
        .control head ∧ head.typeName = ⟨"ASP".toList, "b_ascx".toList⟩ :=
    ⟨_, rfl, (by decide +kernel : userControlType "b.ascx".toList = _)⟩
  obtain ⟨head, hhead, htype⟩ := hcontrol _
  rw [hlast, hhead] at houtcomes
  refine ⟨page, errors, hread, head, ?_, htype⟩
  rw [houtcomes, Multiset.mem_add, Multiset.mem_add]
  exact .inl (.inr (Multiset.mem_singleton_self _))

end Page

end ServerPages
