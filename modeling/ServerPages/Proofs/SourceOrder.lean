import ServerPages.Proofs.Collected

/-! Errors in source order. The markup is reported on while it is read, unclosed tags last, and the tags
that come to nothing are reported after that; then all errors are sorted by line and column. As positions
compare like offsets, this is the order of the places they are about, and those at one place keep the
order in which they were recorded. -/

namespace ServerPages

/-- A stable sort keeps the order among elements that all tie. -/
theorem filter_mergeSort {α : Type} {le : α → α → Bool} {p : α → Bool}
    (trans : ∀ a b c, le a b = true → le b c = true → le a c = true)
    (total : ∀ a b, (le a b || le b a) = true) (tied : ∀ a b, p a = true → p b = true → le a b = true)
    (as : List α) : (as.mergeSort le).filter p = as.filter p := by
  have hsorted : (as.filter p).Pairwise fun a b => le a b = true :=
    List.pairwise_of_forall_mem_list fun a ha b hb =>
      tied a b (List.mem_filter.1 ha).2 (List.mem_filter.1 hb).2
  have hsub := (List.sublist_mergeSort trans total hsorted List.filter_sublist).filter p
  rw [List.filter_eq_self.2 fun a ha => (List.mem_filter.1 ha).2] at hsub
  exact (hsub.eq_of_length ((List.mergeSort_perm as le).filter p).length_eq.symm).symm

/-- A message, and the span of the page it is about. -/
structure Notice where
  message : Text
  span : Span

namespace Notice

/-- Notices by the offsets where their spans start; those with one start keep their order. -/
def sort (notices : List Notice) : List Notice := notices.mergeSort (·.span.start ≤ ·.span.start)

theorem sort_perm (notices : List Notice) : (sort notices).Perm notices := List.mergeSort_perm _ _

theorem sort_sorted (notices : List Notice) :
    (sort notices).Pairwise fun a b => a.span.start ≤ b.span.start := by
  have h : (sort notices).Pairwise fun a b => decide (a.span.start ≤ b.span.start) = true := by
    refine List.pairwise_mergeSort ?trans ?total notices
    · simp only [decide_eq_true_eq]
      omega
    · simp only [Bool.or_eq_true, decide_eq_true_eq]
      omega
  simpa using h

theorem filter_sort (offset : Nat) (notices : List Notice) :
    (sort notices).filter (·.span.start == offset) = notices.filter (·.span.start == offset) := by
  refine filter_mergeSort ?_ ?_ ?_ notices
  · simp only [decide_eq_true_eq]
    omega
  · simp only [Bool.or_eq_true, decide_eq_true_eq]
    omega
  · simp only [beq_iff_eq, decide_eq_true_eq]
    omega

end Notice

def Problem.notice (p : Problem) : Notice := ⟨p.defect.message, p.span⟩

namespace Site

variable (site : Site)

def error (n : Notice) : PageError := ⟨n.message, site.locate n.span⟩

/-- What is said about the opening tag of a node that comes to an error. -/
def notice? (spot : Spot) : Option Notice :=
  match spot.node with
  | .element tag _ _ => (site.error? spot).map fun error => ⟨error.message, tag.opening.span⟩
  | _ => none

variable {site}

/-- A tag comes to an error when it is a content block that names no placeholder, or is not known. -/
theorem error_of_outcome {e : Around} {closing : Closing} {children : List Node} {error : PageError}
    (h : site.outcome e closing children = .error error) :
    error = site.missingPlaceholder e.tag ∨ error = site.unknownControl e.tag := by
  cases hresolve : site.resolve e with
  | content =>
    cases hplaceholder : e.tag.placeholder? with
    | none =>
      simp only [outcome, hresolve, hplaceholder] at h
      cases h
      exact .inl rfl
    | some placeholder => simp [outcome, hresolve, hplaceholder] at h
  | unknown =>
    simp only [outcome, hresolve] at h
    cases h
    exact .inr rfl
  | _ => simp [outcome, hresolve] at h

theorem error?_cases {around : List Around} {registered : List Registration} {tag : Tag}
    {closing : Closing} {children : List Node} {error : PageError}
    (h : site.error? ⟨around, registered, .element tag closing children⟩ = some error) :
    error = site.missingPlaceholder tag ∨ error = site.unknownControl tag := by
  have houtcome : site.outcome? ⟨around, registered, .element tag closing children⟩ =
      some (.error error) := by
    unfold error? at h
    split at h
    · next hsome => rw [hsome, Option.some.inj h]
    · cases h
  simp only [outcome?] at houtcome
  split at houtcome
  · cases houtcome
  · split at houtcome
    · exact error_of_outcome (Option.some.inj houtcome)
    · cases houtcome

theorem location_of_error? {around : List Around} {registered : List Registration} {tag : Tag}
    {closing : Closing} {children : List Node} {error : PageError}
    (h : site.error? ⟨around, registered, .element tag closing children⟩ = some error) :
    error.location = site.locate tag.opening.span := by
  rcases error?_cases h with rfl | rfl <;> rfl

theorem error?_eq (spot : Spot) : site.error? spot = (site.notice? spot).map site.error := by
  obtain ⟨around, registered, node⟩ := spot
  cases node with
  | element tag closing children =>
    cases herror : site.error? ⟨around, registered, .element tag closing children⟩ with
    | none => simp [notice?, herror]
    | some error =>
      simp only [notice?, herror, Option.map_some, Site.error, ← location_of_error? herror]
  | _ => rfl

theorem valid_of_notice? {source : Text} {spot : Spot} {n : Notice}
    (hnode : spot.node ∈ Node.withinAll (parse source).nodes) (h : site.notice? spot = some n) :
    n.span.Valid source := by
  obtain ⟨around, registered, node⟩ := spot
  cases node with
  | element tag closing children =>
    obtain ⟨error, -, rfl⟩ := Option.map_eq_some_iff.1 h
    exact Node.valid_of_mem_spans hnode _ (List.mem_cons_self ..)
  | _ => cases h

end Site

namespace Page

/-- Positions of a page compare as the offsets in it. -/
theorem le_error_iff {path source : Text} {lookup : Lookup} {a b : Notice}
    (ha : a.span.Valid source) (hb : b.span.Valid source) :
    ((site path source lookup).error a).location.start.le
        ((site path source lookup).error b).location.start = true ↔ a.span.start ≤ b.span.start := by
  have := ha.start_le_stop
  have := ha.stop_le
  have := hb.start_le_stop
  have := hb.stop_le
  refine (LineIndex.position_le_iff source).trans ?_
  omega

theorem errors_visitAll (path source : Text) (lookup : Lookup) :
    ((site path source lookup).visitAll .empty (parse source).nodes).2.errors =
      (((site path source lookup).visited (spots path source lookup)).filterMap
        (site path source lookup).notice?).map (site path source lookup).error := by
  have hpart := part_eq Findings.errors rfl (fun _ _ => rfl) (fun _ => rfl) path source lookup
  rw [hpart, List.map_filterMap, List.filterMap_eq_flatMap_toList]
  exact List.flatMap_congr fun spot _ => congrArg Option.toList (Site.error?_eq spot)

/-- An error of a page is a problem of its markup or what a tag of it comes to. -/
theorem exists_notice {path source : Text} {lookup : Lookup} {error : PageError}
    (h : error ∈ (ofSource path source lookup).errors) :
    (∃ p ∈ (parse source).problems, error = (site path source lookup).error p.notice) ∨
      ∃ spot n, spot.node ∈ Node.withinAll (parse source).nodes ∧
        (site path source lookup).notice? spot = some n ∧ error = (site path source lookup).error n := by
  have hmem : error ∈ errorsOf (site path source lookup) (parse source).problems ++
      ((site path source lookup).visitAll .empty (parse source).nodes).2.errors :=
    (List.mergeSort_perm _ _).mem_iff.1 h
  rcases List.mem_append.1 hmem with hmarkup | htags
  · obtain ⟨p, hp, rfl⟩ := List.mem_map.1 hmarkup
    exact .inl ⟨p, hp, rfl⟩
  · rw [errors_visitAll] at htags
    obtain ⟨n, hn, rfl⟩ := List.mem_map.1 htags
    obtain ⟨spot, hspot, hnotice⟩ := List.mem_filterMap.1 hn
    exact .inr ⟨spot, n, mem_within_of_visited hspot, hnotice, rfl⟩

/-- The errors of a page are those of its markup and then those of its visited tags, each kind in the
order it was recorded in, sorted by the offset where their spans start; the sort moves no two errors that
start at one offset past each other. -/
theorem read_errors (path source : Text) (lookup : Lookup) :
    let site := site path source lookup
    let markup := (parse source).problems.map Problem.notice
    let tags := (site.visited (spots path source lookup)).filterMap site.notice?
    (site.visitAll .empty (parse source).nodes).2.errors = tags.map site.error ∧
    ∃ page, ∃ sorted : List Notice, read path source lookup = .ok page ∧
      page.errors = sorted.map site.error ∧
      (∀ n ∈ sorted, n.span.Valid source) ∧
      sorted.Perm (markup ++ tags) ∧
      sorted.Pairwise (fun a b => a.span.start ≤ b.span.start) ∧
      ∀ offset, sorted.filter (·.span.start == offset) =
        markup.filter (·.span.start == offset) ++ tags.filter (·.span.start == offset) := by
  intro site markup tags
  have htags := errors_visitAll path source lookup
  have hvalid : ∀ n ∈ markup ++ tags, n.span.Valid source := by
    intro n hn
    rcases List.mem_append.1 hn with hn | hn
    · obtain ⟨p, hp, rfl⟩ := List.mem_map.1 hn
      exact valid_of_mem_problems hp
    · obtain ⟨spot, hspot, hnotice⟩ := List.mem_filterMap.1 hn
      exact Site.valid_of_notice? (mem_within_of_visited hspot) hnotice
  have hperm := Notice.sort_perm (markup ++ tags)
  refine ⟨htags, _, Notice.sort (markup ++ tags), read_eq_ok path source lookup, ?_,
    fun n hn => hvalid n (hperm.mem_iff.1 hn), hperm, Notice.sort_sorted _, fun offset => ?_⟩
  · have hkeys : ∀ a ∈ markup ++ tags, ∀ b ∈ markup ++ tags, decide (a.span.start ≤ b.span.start) =
        (site.error a).location.start.le (site.error b).location.start := by
      intro a ha b hb
      rw [Bool.eq_iff_iff, decide_eq_true_iff]
      exact (le_error_iff (hvalid a ha) (hvalid b hb)).symm
    have hsort : (Notice.sort (markup ++ tags)).map site.error =
        sortErrors ((markup ++ tags).map site.error) := List.map_mergeSort hkeys
    rw [hsort, List.map_append, List.map_map, ← htags]
    rfl
  · rw [Notice.filter_sort, List.filter_append]

end Page

end ServerPages
