import ServerPages.Proofs.Reporting
import ServerPages.Proofs.Siblings

/-! A file whose bytes are not all text. It is read with replacements, which stand behind the text that the
bytes begin with; so the end of that text is an offset of what is read, and the line index has the position
that is counted in it. The problem is put among those of the page, which are in order already and keep their
order. -/

namespace ServerPages

open scoped List

theorem exists_of_sublist_succ {α : Type} {as bs : List α} (h : as.Sublist bs)
    (hlength : bs.length = as.length + 1) :
    ∃ front b back, as = front ++ back ∧ bs = front ++ b :: back := by
  induction h with
  | slnil => cases hlength
  | @cons as bs b h ih =>
    have heq := h.eq_of_length (by simpa using hlength.symm)
    exact ⟨[], b, bs, heq, rfl⟩
  | @cons_cons as bs a h ih =>
    obtain ⟨front, b, back, rfl, rfl⟩ := ih (by simpa using hlength)
    exact ⟨a :: front, b, back, rfl, rfl⟩

/-- An error that joins errors in order is put among them. -/
theorem exists_sortErrors_append {errors : List PageError}
    (h : errors.Pairwise fun a b => a.location.start.le b.location.start = true) (added : PageError) :
    ∃ front back, errors = front ++ back ∧ sortErrors (errors ++ [added]) = front ++ added :: back := by
  have hperm := sortErrors_perm (errors ++ [added])
  have hsub : errors.Sublist (sortErrors (errors ++ [added])) := by
    refine List.sublist_mergeSort ?trans ?total h (List.sublist_append_left _ _)
    case trans => exact fun _ _ _ => Position.le_trans
    case total => exact fun _ _ => Position.le_total _ _
  obtain ⟨front, b, back, herrors, hsorted⟩ :=
    exists_of_sublist_succ hsub (by rw [hperm.length_eq, List.length_append, List.length_singleton])
  have hadded : [b] ++ errors ~ [added] ++ errors := by
    rw [hsorted] at hperm
    exact (herrors ▸ List.perm_middle.symm).trans (hperm.trans List.perm_append_comm)
  rw [List.perm_append_right_iff, List.singleton_perm_singleton] at hadded
  exact ⟨front, back, herrors, hadded ▸ hsorted⟩

namespace FileReport

variable {bytes : Bytes}

theorem ofBytes_of_text?_eq_none (h : Utf8.text? bytes = none) (path : Text) (lookup : Lookup) :
    ofBytes path bytes lookup =
      ⟨path, Utf8.lossy bytes, { Page.ofSource path (Utf8.lossy bytes) lookup with
        errors := sortErrors ((Page.ofSource path (Utf8.lossy bytes) lookup).errors ++
          [notText path bytes]) }⟩ := by
  rw [ofBytes, h]

/-- The problem is where the line index of what is read has the end of the valid front part. -/
theorem location_notText (path : Text) (bytes : Bytes) :
    (notText path bytes).location =
      ⟨path, (LineIndex.ofText (Utf8.lossy bytes)).position (Utf8.valid bytes).byteLength,
        (LineIndex.ofText (Utf8.lossy bytes)).position (Utf8.valid bytes).byteLength⟩ := by
  obtain ⟨back, hback⟩ := Utf8.valid_isPrefix_lossy bytes
  have hposition := LineIndex.position_append (Utf8.valid bytes) back
  rw [hback] at hposition
  rw [hposition]
  rfl

/-- Bytes that are no text are reported once, where the longest text that they begin with ends: there the
text that is read can be cut, and the line index of it has the position of the problem. All other problems
are those of the page that is read, in their order, and all together are in order. -/
theorem reportOn_notText (h : ∀ t : Text, t.bytes ≠ bytes) (path : Text) (lookup : Lookup) :
    ∃ page report, Page.read path (Utf8.lossy bytes) lookup = .ok page ∧
      Check.reportOn lookup path (.ok bytes) = .ok report ∧ report.source = Utf8.lossy bytes ∧
      ∃ valid : Text, (∀ t : Text, t.bytes <+: bytes ↔ t <+: valid) ∧
        report.source.takeBytes? valid.byteLength = some valid ∧
        let position := (LineIndex.ofText report.source).position valid.byteLength
        ∃ added front back, added.message = "file is not valid UTF-8".toList ∧
          added.location = ⟨path, position, position⟩ ∧
          page.errors = front ++ back ∧
          report.page = { page with errors := front ++ added :: back } ∧
          report.page.errors.Pairwise fun a b => a.location.start.le b.location.start = true := by
  have hpage : (Page.ofSource path (Utf8.lossy bytes) lookup).errors.Pairwise
      fun a b => a.location.start.le b.location.start = true := sortErrors_sorted _
  obtain ⟨front, back, herrors, hsorted⟩ := exists_sortErrors_append hpage (notText path bytes)
  have hreport := ofBytes_of_text?_eq_none (Utf8.text?_eq_none_iff.2 h) path lookup
  rw [hsorted] at hreport
  obtain ⟨behind, hbehind⟩ := Utf8.valid_isPrefix_lossy bytes
  have hcut : (Utf8.lossy bytes).takeBytes? (Utf8.valid bytes).byteLength = some (Utf8.valid bytes) := by
    rw [← hbehind, Text.takeBytes?_append]
  have hordered : (front ++ notText path bytes :: back).Pairwise
      fun a b => a.location.start.le b.location.start = true := hsorted ▸ sortErrors_sorted _
  exact ⟨_, _, Page.read_eq_ok path (Utf8.lossy bytes) lookup, congrArg Except.ok hreport, rfl,
    Utf8.valid bytes, fun t => Utf8.bytes_isPrefix_iff, hcut, notText path bytes, front, back,
    rfl, location_notText path bytes, herrors, rfl, hordered⟩

/-- On the second line there is a byte that begins no character. -/
theorem reportOn_notText_secondLine :
    (∀ t : Text, t.bytes ≠ [0x6F, 0x6B, 0x0A, 0x3C, 0x70, 0x3E, 0xFF]) ∧
    ∃ report, Check.reportOn (fun _ _ => none) ['p'] (.ok [0x6F, 0x6B, 0x0A, 0x3C, 0x70, 0x3E, 0xFF]) =
        .ok report ∧
      ∃ added ∈ report.page.errors, added.message = "file is not valid UTF-8".toList ∧
        added.location = ⟨['p'], ⟨2, 3⟩, ⟨2, 3⟩⟩ := by
  have hbytes : ∀ t : Text, t.bytes ≠ [0x6F, 0x6B, 0x0A, 0x3C, 0x70, 0x3E, 0xFF] :=
    Utf8.text?_eq_none_iff.1 (by decide)
  refine ⟨hbytes, ?_⟩
  obtain ⟨page, report, -, hreport, hsource, valid, hvalid, -, added, front, back, hmessage, hlocation,
    -, hpage, -⟩ := reportOn_notText hbytes ['p'] fun _ _ => none
  have hsame : valid = Utf8.valid [0x6F, 0x6B, 0x0A, 0x3C, 0x70, 0x3E, 0xFF] :=
    List.IsPrefix.eq_of_length_le
      (Utf8.bytes_isPrefix_iff.1 ((hvalid valid).2 (List.prefix_refl _)))
      ((hvalid _).1 (Utf8.bytes_isPrefix_iff.2 (List.prefix_refl _))).length_le
  have hposition : (LineIndex.ofText report.source).position valid.byteLength = ⟨2, 3⟩ := by
    rw [hsource, hsame]
    exact (LineIndex.position_append ['o', 'k', '\n', '<', 'p', '>'] ['\uFFFD']).trans (by decide)
  rw [hposition] at hlocation
  refine ⟨report, hreport, added, ?_, hmessage, hlocation⟩
  rw [hpage]
  exact List.mem_append_right _ (List.mem_cons_self ..)

end FileReport

end ServerPages
