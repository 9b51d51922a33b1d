import ServerPages.Proofs.Position
import ServerPages.Proofs.Utf8

/-! Positions by a scan of the bytes. The bisection of the table finds at every offset, inside a character
too, what a scan from the front of the text counts: a line feed begins a line, any other byte is a column.
A line index tells line feeds from other bytes and nothing else, so it is that of a text with one character
for each byte, and there every offset is between characters. -/

namespace ServerPages

namespace Position

def next (p : Position) (b : UInt8) : Position :=
  if b = 0x0A then ⟨p.line + 1, 0⟩ else ⟨p.line, p.column + 1⟩

/-- The position behind the bytes that a file begins with, byte by byte. -/
def scan (front : Bytes) : Position := front.foldl next first

/-- A scan counts the line feeds, and the bytes behind the last of them. -/
theorem scan_eq (front : Bytes) :
    scan front = ⟨1 + front.count 0x0A, (front.reverse.takeWhile (· != 0x0A)).length⟩ := by
  induction front using List.reverseRecOn with
  | nil => rfl
  | append_singleton front b ih =>
    rw [scan, List.foldl_append, List.foldl_cons, List.foldl_nil, ← scan, ih, next, List.reverse_append,
      List.reverse_singleton, List.singleton_append, List.takeWhile_cons, List.count_append]
    by_cases hb : b = 0x0A
    · simp [hb, Nat.add_assoc]
    · simp [hb]

end Position

namespace LineIndex

/-- A character of one byte in the place of a byte. -/
def mark (b : UInt8) : Char := if b = 0x0A then '\n' else ' '

theorem utf8Size_mark (b : UInt8) : (mark b).utf8Size = 1 := by
  unfold mark
  split <;> rfl

theorem byteLength_marks (bytes : Bytes) : Text.byteLength (bytes.map mark) = bytes.length := by
  induction bytes with
  | nil => rfl
  | cons b bytes ih =>
    rw [List.map_cons, Text.byteLength_cons, utf8Size_mark, ih, List.length_cons, Nat.add_comm]

theorem mark_eq_iff (b : UInt8) : mark b = '\n' ↔ b = 0x0A := by
  unfold mark
  split
  · next h => simp [h]
  · next h => simp [h]

theorem startsAfter_marks (offset : Nat) (t : Text) :
    startsAfter offset (t.bytes.map mark) = startsAfter offset t := by
  induction t generalizing offset with
  | nil => rfl
  | cons c t ih =>
    rw [Text.bytes_cons, List.map_append, startsAfter_append, byteLength_marks,
      String.length_utf8EncodeChar, ih, startsAfter]
    by_cases hc : c = '\n'
    · subst hc
      rfl
    · rw [if_neg hc]
      have hnone : startsAfter offset ((String.utf8EncodeChar c).map mark) = [] := by
        refine List.eq_nil_of_length_eq_zero ?_
        rw [length_startsAfter, List.count_eq_zero, List.mem_map]
        rintro ⟨b, hb, hmark⟩
        exact Utf8.lineFeed_notMem hc ((mark_eq_iff b).1 hmark ▸ hb)
      rw [hnone, List.nil_append]

theorem ofText_marks (t : Text) : ofText (t.bytes.map mark) = ofText t := by
  rw [ofText, ofText, startsAfter_marks, byteLength_marks, Text.length_bytes]

theorem count_marks (bytes : Bytes) : (bytes.map mark).count '\n' = bytes.count 0x0A := by
  rw [List.count_eq_countP, List.count_eq_countP, List.countP_map]
  refine List.countP_congr fun b _ => ?_
  simp [mark_eq_iff]

theorem position_min (t : Text) (offset : Nat) :
    (ofText t).position (min offset t.byteLength) = (ofText t).position offset := by
  have hmin : min (min offset t.byteLength) (ofText t).length = min offset (ofText t).length := by
    rw [show (ofText t).length = t.byteLength from rfl]
    omega
  simp only [position, hmin]

/-- A position is what a scan of the bytes in front of the offset counts. -/
theorem position_eq_scan (t : Text) (offset : Nat) :
    (ofText t).position offset = Position.scan (t.bytes.take (min offset t.byteLength)) := by
  have hlength : (t.bytes.take (min offset t.byteLength)).length = min offset t.byteLength := by
    rw [List.length_take, Text.length_bytes]
    omega
  have hposition := position_append ((t.bytes.take (min offset t.byteLength)).map mark)
    ((t.bytes.drop (min offset t.byteLength)).map mark)
  rw [← List.map_append, List.take_append_drop, ofText_marks, byteLength_marks, hlength,
    position_min] at hposition
  have hbehind : (· != '\n') ∘ mark = (· != 0x0A) := by
    funext b
    simp [bne, mark_eq_iff]
  rw [hposition, Position.scan_eq, Position.after, count_marks, ← List.map_reverse, List.takeWhile_map,
    byteLength_marks, hbehind, Nat.add_comm]

/-- The line of a position is the last that starts at the offset or before it. -/
theorem start_le_iff (t : Text) (offset i : Nat) (h : i < (ofText t).starts.size) :
    (ofText t).starts[i] ≤ min offset t.byteLength ↔ i < ((ofText t).position offset).line := by
  have hsplits := position_splits t offset
  have hentry : (ofText t).starts.getD i 0 = (ofText t).starts[i] := by
    rw [Array.getD_eq_getD_getElem?, Array.getElem?_eq_getElem h, Option.getD_some]
  constructor
  · intro hle
    refine Nat.lt_of_not_le fun hafter => ?_
    have hlt := hsplits.after i hafter h
    rw [hentry] at hlt
    exact absurd hle (Nat.not_le.2 hlt)
  · intro hbefore
    have hle := hsplits.before i hbefore
    rwa [hentry] at hle

theorem starts_increasing (t : Text) : (ofText t).starts.toList.Pairwise (· < ·) := by
  obtain ⟨hlater, hsorted⟩ := startsAfter_sorted 0 t
  exact List.pairwise_cons.2 ⟨hlater, hsorted⟩

theorem start_le_length {t : Text} {start : Nat} (h : start ∈ (ofText t).starts) :
    start ≤ t.byteLength := by
  have hmem : start ∈ 0 :: startsAfter 0 t := by simpa [ofText] using h
  rcases List.mem_cons.1 hmem with rfl | hmem
  · exact Nat.zero_le _
  · have := le_of_mem_startsAfter hmem
    omega

theorem position_lt (t : Text) {a b : Nat} (hab : a < b) (hb : b ≤ t.byteLength) :
    ((ofText t).position a).line < ((ofText t).position b).line ∨
      ((ofText t).position a).line = ((ofText t).position b).line ∧
        ((ofText t).position a).column < ((ofText t).position b).column := by
  have hle := (position_le_iff t (a := a) (b := b)).2 (by omega)
  have hnot := mt (position_le_iff t (a := b) (b := a)).1 (by omega)
  rw [Position.le_iff] at hle hnot
  omega

/-- The look-up in the table of line starts gives what a scan of the bytes gives. The table is strictly
increasing, so an offset has one place in it, and that is found; the access is in the table and the start
of the line not behind the offset. So the offset is told by the position, and a later one has a later
position. -/
theorem position_scanned (t : Text) :
    let index := ofText t
    index.starts.toList.Pairwise (· < ·) ∧ (∀ start ∈ index.starts, start ≤ t.byteLength) ∧
    (∀ offset,
      let o := min offset t.byteLength
      let front := t.bytes.take o
      let p := index.position offset
      p = Position.scan front ∧
      p = ⟨1 + front.count 0x0A, (front.reverse.takeWhile (· != 0x0A)).length⟩ ∧
      (∀ i (h : i < index.starts.size), index.starts[i] ≤ o ↔ i < p.line) ∧
      ∃ h : p.line - 1 < index.starts.size, index.starts[p.line - 1] ≤ o ∧
        index.lineStart? p.line = some index.starts[p.line - 1] ∧
        index.starts[p.line - 1] + p.column = o) ∧
    ∀ a b, a < b → b ≤ t.byteLength →
      (index.position a).line < (index.position b).line ∨
        (index.position a).line = (index.position b).line ∧
          (index.position a).column < (index.position b).column := by
  intro index
  refine ⟨starts_increasing t, fun start => start_le_length, fun offset => ?_,
    fun a b => position_lt t⟩
  intro o front p
  have hscan : p = Position.scan front := position_eq_scan t offset
  have hcount := Position.scan_eq front
  have hline : p.line = 1 + front.count 0x0A := by rw [hscan, hcount]
  have hsize : p.line ≤ index.starts.size := (position_splits t offset).le_size
  have hindex : p.line - 1 < index.starts.size := by omega
  have hstart : index.starts[p.line - 1] ≤ o := by
    refine (start_le_iff t offset _ hindex).2 ?_
    show p.line - 1 < p.line
    omega
  have hlookup : index.lineStart? p.line = some index.starts[p.line - 1] := by
    obtain ⟨n, hn⟩ : ∃ n, p.line = n + 1 := ⟨p.line - 1, by omega⟩
    simp only [hn, lineStart?, Nat.add_sub_cancel]
    exact Array.getElem?_eq_getElem _
  have hoffset : index.offset? p = some o := by
    rw [show p = index.position o from (position_min t offset).symm]
    exact offset?_position t (Nat.min_le_right _ _)
  rw [offset?, hlookup, Option.map_some, Option.some.injEq] at hoffset
  exact ⟨hscan, hscan.trans hcount, start_le_iff t offset, hindex, hstart, hlookup, hoffset⟩

end LineIndex

end ServerPages
