import ServerPages.Proofs.Extent

/-! Offsets, lines and columns are kept in words. On a page of less than `wordSize` bytes every span and every
column is kept as it is. As lines are counted from 1, a line is kept as it is only if there are less than
`wordSize - 1` line feeds in front of it. -/

namespace ServerPages

theorem Span.stored_eq_iff {s : Span} : s.stored = s ↔ s.start < wordSize ∧ s.stop < wordSize := by
  obtain ⟨start, stop⟩ := s
  simp only [stored, Span.mk.injEq, wordSize]
  omega

/-- The position as it is kept, its line and its column cut to words. -/
def Position.stored (p : Position) : Position := ⟨p.line % wordSize, p.column % wordSize⟩

theorem Position.stored_eq_iff {p : Position} :
    p.stored = p ↔ p.line < wordSize ∧ p.column < wordSize := by
  obtain ⟨line, column⟩ := p
  simp only [stored, Position.mk.injEq, wordSize]
  omega

def Location.stored (l : Location) : Location := ⟨l.path, l.start.stored, l.stop.stored⟩

namespace LineIndex

variable {t : Text}

theorem column_le (t : Text) (offset : Nat) : ((ofText t).position offset).column ≤ t.byteLength := by
  have hmin : min offset (ofText t).length ≤ t.byteLength := Nat.min_le_right _ _
  exact (Nat.sub_le _ _).trans hmin

/-- No line is behind the one after the last line feed. -/
theorem line_le (t : Text) (offset : Nat) : ((ofText t).position offset).line ≤ t.count '\n' + 1 := by
  have hsize := (position_splits t offset).le_size
  have hstarts : (ofText t).starts.size = t.count '\n' + 1 := by
    simp only [ofText, List.size_toArray, List.length_cons, length_startsAfter]
  omega

/-- The positions of a short text are kept as they are exactly when the number of its last line is a word. -/
theorem position_stored_iff (h : t.byteLength < wordSize) :
    (∀ offset, ((ofText t).position offset).stored = (ofText t).position offset) ↔
      t.count '\n' + 1 < wordSize := by
  constructor
  · intro hstored
    have hlast : (ofText t).position t.byteLength = .after t := by
      have := position_append t []
      rwa [List.append_nil] at this
    have hline := (Position.stored_eq_iff.1 (hstored t.byteLength)).1
    rwa [hlast] at hline
  · intro hlines offset
    have hline := line_le t offset
    have hcolumn := column_le t offset
    exact Position.stored_eq_iff.2 ⟨by omega, by omega⟩

end LineIndex

namespace Page

variable {source : Text}

/-- On a page that is shorter than a word can count, and has fewer lines, all spans of its markup and all
locations in it are kept as they are. -/
theorem stored_eq (hlength : source.byteLength < wordSize) (hlines : source.count '\n' + 1 < wordSize)
    (path : Text) (lookup : Lookup) :
    (∀ s ∈ (parse source).spans, s.stored = s) ∧
      ∃ page, read path source lookup = .ok page ∧
        ∀ location ∈ page.locations, location.stored = location := by
  have hposition := (LineIndex.position_stored_iff hlength).2 hlines
  refine ⟨fun s hs => ?_, _, read_eq_ok path source lookup, fun location hlocation => ?_⟩
  · have hvalid := Parsed.valid_of_mem_spans hs
    have hle := hvalid.start_le_stop
    have hstop := hvalid.stop_le
    exact Span.stored_eq_iff.2 ⟨by omega, by omega⟩
  · obtain ⟨s, rfl, -⟩ := forward_of_mem_locations hlocation
    exact congrArg₂ (Location.mk path) (hposition s.start) (hposition s.stop)

end Page

end ServerPages
