import ServerPages.Proofs.PathOrder
import ServerPages.Proofs.Pointing

/-! References between files. A reference is followed from a folder to a list of names: a step up takes the
last name away and stays at the application root when there is none. So no reference leads out of the
application, and one that starts at the root leads to the same file from everywhere. -/

namespace ServerPages

namespace Text

theorem trim_eq_self {t : Text} (hhead : ∀ c ∈ t.head?, isSpace c = false)
    (hlast : ∀ c ∈ t.getLast?, isSpace c = false) : t.trim = t := by
  have hstart {u : Text} (h : ∀ c ∈ u.head?, isSpace c = false) : u.trimStart = u := by
    cases u with
    | nil => rfl
    | cons c u => exact List.dropWhile_cons_of_neg (by simp [h c rfl])
  rw [trim, hstart hhead, trimEnd, hstart (by rwa [List.head?_reverse]), List.reverse_reverse]

end Text

namespace Path

theorem notMem_forward (t : Text) : '\\' ∉ forward t := by
  intro h
  obtain ⟨c, -, hc⟩ := List.mem_map.1 h
  split at hc
  · cases hc
  · next hne => exact hne hc

theorem forward_eq_self {t : Text} (h : '\\' ∉ t) : forward t = t := by
  refine (List.map_congr_left fun c hc => ?_).trans (List.map_id t)
  exact if_neg fun (heq : c = '\\') => h (heq ▸ hc)

theorem isSpace_getLast?_forward {t : Text} (h : ∀ c ∈ t.getLast?, Text.isSpace c = false) :
    ∀ c ∈ (forward t).getLast?, Text.isSpace c = false := by
  intro c hc
  rw [forward, List.getLast?_map] at hc
  obtain ⟨d, hd, rfl⟩ := Option.map_eq_some_iff.1 hc
  split
  · rfl
  · exact h d hd

/-- What holds of the names so far and of every segment that adds a name holds of all names reached. -/
theorem forall_mem_follow {p : Text → Prop} {latest segments : List Text} (hlatest : ∀ name ∈ latest, p name)
    (hsegments : ∀ segment ∈ segments, segment ≠ [] → segment ≠ ['.'] → segment ≠ ['.', '.'] → p segment) :
    ∀ name ∈ follow latest segments, p name := by
  fun_induction follow latest segments with
  | case1 latest => exact fun name hname => hlatest name (List.mem_reverse.1 hname)
  | case2 latest segment segments hskip ih => exact ih hlatest (List.forall_mem_cons.1 hsegments).2
  | case3 latest segments hskip ih =>
    -- a step up: the names left are among those before it
    exact ih (fun name hname => hlatest name (List.mem_of_mem_tail hname))
      (List.forall_mem_cons.1 hsegments).2
  | case4 latest segment segments hskip hparent ih =>
    obtain ⟨hne, hcurrent⟩ := not_or.1 hskip
    obtain ⟨hsegment, hrest⟩ := List.forall_mem_cons.1 hsegments
    exact ih (List.forall_mem_cons.2 ⟨hsegment hne hcurrent hparent, hlatest⟩) hrest

/-- A reference that is taken from the application root. -/
def IsRooted (reference : Text) : Prop :=
  ['~', '/'] <+: reference ∨ ['/'] <+: reference ∨ reference = ['~']

theorem fromRoot?_cases (reference : Text) :
    (∃ rest, fromRoot? reference = some rest ∧ rest <:+ reference ∧ IsRooted reference) ∨
      fromRoot? reference = none ∧ ¬ IsRooted reference := by
  unfold fromRoot?
  split
  · next rest => exact .inl ⟨rest, rfl, ⟨['~', '/'], rfl⟩, .inl (List.prefix_append ['~', '/'] rest)⟩
  · exact .inl ⟨[], rfl, List.nil_suffix, .inr (.inr rfl)⟩
  · next rest => exact .inl ⟨rest, rfl, ⟨['/'], rfl⟩, .inr (.inl (List.prefix_append ['/'] rest))⟩
  · next htilde halone hslash =>
    refine .inr ⟨rfl, ?_⟩
    rintro (⟨rest, rfl⟩ | ⟨rest, rfl⟩ | rfl)
    · exact htilde rest rfl
    · exact hslash rest rfl
    · exact halone rfl

def folder (page : Text) : Text := forward ((parent? page).getD [])

/-- The segments that lead from the application root to what a reference in a page names. -/
def segments (page reference : Text) : List Text :=
  match fromRoot? reference with
  | some rest => rest.split '/'
  | none => (folder page).split '/' ++ reference.split '/'

theorem resolve_eq (page reference : Text) :
    resolve page reference = ofNames (follow [] (segments page (forward reference.trim))) := rfl

/-- No segment holds a slash of either kind. -/
theorem flat_of_mem_segments {page reference segment : Text} (hflat : '\\' ∉ reference)
    (h : segment ∈ segments page reference) : '/' ∉ segment ∧ '\\' ∉ segment := by
  have hpieces {t : Text} (ht : '\\' ∉ t) (hmem : segment ∈ t.split '/') :
      '/' ∉ segment ∧ '\\' ∉ segment :=
    ⟨Text.notMem_of_mem_split hmem, fun hslash => ht (Text.forall_mem_split hmem _ hslash).1⟩
  unfold segments at h
  rcases fromRoot?_cases reference with ⟨rest, hroot, hsuffix, -⟩ | ⟨hroot, -⟩
  · rw [hroot] at h
    exact hpieces (fun hslash => hflat (hsuffix.subset hslash)) h
  · rw [hroot] at h
    rcases List.mem_append.1 h with h | h
    · exact hpieces (notMem_forward _) h
    · exact hpieces hflat h

/-- A reference that is not taken from the root names what it names from there behind the folder of its
page. -/
theorem segments_fromRoot {reference : Text} (h : ¬ IsRooted reference) (page other : Text) :
    segments other (['~', '/'] ++ folder page ++ '/' :: reference) = segments page reference := by
  have hnone : fromRoot? reference = none := by
    rcases fromRoot?_cases reference with ⟨_, _, _, hrooted⟩ | ⟨hnone, _⟩
    · exact absurd hrooted h
    · exact hnone
  have hsome : fromRoot? (['~', '/'] ++ folder page ++ '/' :: reference) =
      some (folder page ++ '/' :: reference) := rfl
  rw [segments, segments, hsome, hnone]
  exact Text.split_append_cons _ _ _

/-- A reference behind the folder of its page is neither trimmed nor turned once more. -/
theorem forward_trim_fromRoot (page reference : Text) :
    forward (Text.trim (['~', '/'] ++ folder page ++ '/' :: forward reference.trim)) =
      ['~', '/'] ++ folder page ++ '/' :: forward reference.trim := by
  have htrim : Text.trim (['~', '/'] ++ folder page ++ '/' :: forward reference.trim) =
      ['~', '/'] ++ folder page ++ '/' :: forward reference.trim := by
    refine Text.trim_eq_self (by simp; rfl) fun c hc => ?_
    rw [List.getLast?_append_cons, List.getLast?_cons] at hc
    cases hlast : (forward reference.trim).getLast? with
    | none =>
      rw [hlast] at hc
      cases hc
      rfl
    | some d =>
      rw [hlast] at hc
      cases hc
      exact isSpace_getLast?_forward reference.ends_trim.2 d hlast
  rw [htrim]
  refine forward_eq_self ?_
  have hfolder := notMem_forward ((parent? page).getD [])
  have hreference := notMem_forward reference.trim
  simp [folder, hfolder, hreference]

/-- The file that a reference in a page names lies in the application: its path is relative and made of
names alone. A reference from the root names one file in all pages; any other names what it names from the
root behind the folder of its page. -/
theorem resolve_names (page reference : Text) :
    (∃ names : List Text, resolve page reference = ofNames names ∧
      isAbsolute (resolve page reference) = false ∧
      components (resolve page reference) = names.map .normal ∧
      ∀ name ∈ names, IsName name ∧ '\\' ∉ name) ∧
    (IsRooted (forward reference.trim) →
      ∀ other, resolve other reference = resolve page reference) ∧
    (¬ IsRooted (forward reference.trim) → ∀ other, resolve page reference =
      resolve other (['~', '/'] ++ folder page ++ '/' :: forward reference.trim)) := by
  have hnames : ∀ name ∈ follow [] (segments page (forward reference.trim)),
      IsName name ∧ '\\' ∉ name := by
    refine forall_mem_follow (by simp) fun segment hsegment hne hcurrent hparent => ?_
    obtain ⟨hflat, hback⟩ := flat_of_mem_segments (notMem_forward _) hsegment
    exact ⟨⟨hne, hflat, hcurrent, hparent⟩, hback⟩
  have hplain := fun name hname => (hnames name hname).1
  refine ⟨⟨_, resolve_eq page reference, ?_, components_ofNames hplain, hnames⟩, ?_, ?_⟩
  · rw [resolve_eq]
    simpa [isAbsolute] using head?_ofNames hplain
  · intro hrooted other
    rcases fromRoot?_cases (forward reference.trim) with ⟨rest, hroot, -, -⟩ | ⟨-, hnot⟩
    · rw [resolve_eq, resolve_eq, segments, segments, hroot]
    · exact absurd hrooted hnot
  · intro hrelative other
    rw [resolve_eq, resolve_eq, forward_trim_fromRoot, segments_fromRoot hrelative]

end Path

end ServerPages
