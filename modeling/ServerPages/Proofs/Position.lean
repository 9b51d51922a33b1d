import Mathlib.Data.List.Induction
import ServerPages.Proofs.Slice
import ServerPages.Source.LineIndex

/-! Positions follow offsets. The table of line starts is increasing, so bisecting it splits it where an
offset belongs: the lines that start at or before the offset, and those that start after it. A later
offset has no fewer lines before it, and so a position that is not earlier. It is the position that is
counted after the text in front of the offset, and the offset can be told from it. -/

namespace ServerPages

namespace Position

variable {a b c : Position}

theorem le_iff : a.le b = true ↔ a.line < b.line ∨ a.line = b.line ∧ a.column ≤ b.column := by
  simp [le]

theorem le_trans (hab : a.le b = true) (hbc : b.le c = true) : a.le c = true := by
  rw [le_iff] at hab hbc ⊢
  omega

theorem le_total (a b : Position) : (a.le b || b.le a) = true := by
  rw [Bool.or_eq_true, le_iff, le_iff]
  omega

end Position

namespace LineIndex

/-- The first `n` entries of the table are at most `offset`, the others are above it. -/
structure Splits (table : Array Nat) (offset n : Nat) : Prop where
  le_size : n ≤ table.size
  before : ∀ i < n, table.getD i 0 ≤ offset
  after : ∀ i, n ≤ i → i < table.size → offset < table.getD i 0

def Increasing (table : Array Nat) : Prop :=
  ∀ i j, i ≤ j → j < table.size → table.getD i 0 ≤ table.getD j 0

/-- Bisecting narrows the place of the answer down to one. -/
theorem bisect_splits {table : Array Nat} (hincreasing : Increasing table) {offset low high : Nat}
    (hle : low ≤ high) (hsize : high ≤ table.size) (hbefore : ∀ i < low, table.getD i 0 ≤ offset)
    (hafter : ∀ i, high ≤ i → i < table.size → offset < table.getD i 0) :
    Splits table offset (bisect table offset low high) := by
  fun_induction bisect table offset low high with
  | case1 low high hlt middle hmiddle ih =>
    refine ih (by omega) hsize (fun i hi => ?_) hafter
    have := hincreasing i middle (by omega) (by omega)
    omega
  | case2 low high hlt middle hmiddle ih =>
    refine ih (by omega) (by omega) hbefore fun i hi hlast => ?_
    have := hincreasing middle i hi hlast
    omega
  | case3 low high hlt =>
    have : high = low := by omega
    exact ⟨by omega, hbefore, this ▸ hafter⟩

theorem Splits.le {table : Array Nat} {a b n m : Nat} (ha : Splits table a n) (hb : Splits table b m)
    (hab : a ≤ b) : n ≤ m := by
  have := ha.le_size
  refine Nat.le_of_not_lt fun hlt => ?_
  have := ha.before m hlt
  have := hb.after m (Nat.le_refl m) (by omega)
  omega

theorem startsAfter_sorted (offset : Nat) (t : Text) :
    (∀ start ∈ startsAfter offset t, offset < start) ∧
      (startsAfter offset t).Pairwise (· < ·) := by
  induction t generalizing offset with
  | nil => simp [startsAfter]
  | cons c t ih =>
    have hpos := c.utf8Size_pos
    simp only [startsAfter]
    split
    · obtain ⟨hlater, hsorted⟩ := ih (offset + 1)
      refine ⟨?_, List.pairwise_cons.2 ⟨hlater, hsorted⟩⟩
      intro start hstart
      rcases List.mem_cons.1 hstart with rfl | hstart
      · omega
      · have := hlater start hstart
        omega
    · obtain ⟨hlater, hsorted⟩ := ih (offset + c.utf8Size)
      refine ⟨fun start hstart => ?_, hsorted⟩
      have := hlater start hstart
      omega

theorem increasing_ofText (t : Text) : Increasing (ofText t).starts := by
  obtain ⟨hlater, hsorted⟩ := startsAfter_sorted 0 t
  have hall : (0 :: startsAfter 0 t).Pairwise (· < ·) := List.pairwise_cons.2 ⟨hlater, hsorted⟩
  intro i j hij hj
  have hj : j < (0 :: startsAfter 0 t).length := by simpa [ofText] using hj
  rcases Nat.lt_or_eq_of_le hij with hij | rfl
  · have := List.pairwise_iff_getElem.1 hall i j (by omega) hj hij
    simp only [ofText, Array.getD_eq_getD_getElem?, List.getElem?_toArray,
      List.getElem?_eq_getElem hj, List.getElem?_eq_getElem (Nat.lt_trans hij hj), Option.getD_some]
    omega
  · exact Nat.le_refl _

theorem position_splits (t : Text) (offset : Nat) :
    Splits (ofText t).starts (min offset (ofText t).length) ((ofText t).position offset).line :=
  bisect_splits (increasing_ofText t) (Nat.zero_le _) (Nat.le_refl _) (by omega) (by omega)

/-- The line of a position starts at or before the offset. -/
theorem lineStart_le (t : Text) (offset : Nat) :
    (ofText t).starts.getD (((ofText t).position offset).line - 1) 0 ≤
      min offset (ofText t).length := by
  have hsplits := position_splits t offset
  refine hsplits.before _ (Nat.sub_one_lt fun hzero => ?_)
  have hfirst := hsplits.after 0 (Nat.le_of_eq hzero) (by simp [ofText])
  simp [ofText] at hfirst

/-- Positions compare as offsets do, where offsets past the end count as the end. -/
theorem position_le_iff (t : Text) {a b : Nat} :
    ((ofText t).position a).le ((ofText t).position b) = true ↔
      min a t.byteLength ≤ min b t.byteLength := by
  have hstart := lineStart_le t b
  rw [Position.le_iff]
  constructor
  · intro h
    refine Nat.le_of_not_lt fun hlt => ?_
    have hline := (position_splits t b).le (position_splits t a) (Nat.le_of_lt hlt)
    rcases h with hless | ⟨heq, hcolumn⟩
    · omega
    · simp only [position, ofText] at heq hcolumn hstart
      rw [heq] at hcolumn
      omega
  · intro h
    rcases Nat.lt_or_eq_of_le ((position_splits t a).le (position_splits t b) h) with hless | heq
    · exact .inl hless
    · refine .inr ⟨heq, ?_⟩
      simp only [position] at heq ⊢
      rw [heq]
      exact Nat.sub_le_sub_right h _

theorem position_mono (t : Text) {a b : Nat} (h : a ≤ b) :
    ((ofText t).position a).le ((ofText t).position b) = true :=
  (position_le_iff t).2 (by omega)

def offset? (index : LineIndex) (p : Position) : Option Nat := (index.lineStart? p.line).map (· + p.column)

theorem offset?_position (t : Text) {offset : Nat} (h : offset ≤ t.byteLength) :
    (ofText t).offset? ((ofText t).position offset) = some offset := by
  have hstart := lineStart_le t offset
  have hsplits := position_splits t offset
  have hmin : min offset (ofText t).length = offset := Nat.min_eq_left h
  have hsize := hsplits.le_size
  cases hline : ((ofText t).position offset).line with
  | zero =>
    have hfirst := hsplits.after 0 (Nat.le_of_eq hline) (by simp [ofText])
    simp [ofText] at hfirst
  | succ n =>
    have hn : n < (ofText t).starts.size := by omega
    have hentry : (ofText t).starts.getD n 0 = (ofText t).starts[n] := by
      rw [Array.getD_eq_getD_getElem?, Array.getElem?_eq_getElem hn, Option.getD_some]
    rw [hline, Nat.add_sub_cancel, hmin, hentry] at hstart
    have hcolumn : ((ofText t).position offset).column = offset - (ofText t).starts[n] := by
      simp only [position] at hline ⊢
      rw [hline, hmin, Nat.add_sub_cancel, hentry]
    rw [offset?, hline, lineStart?, Array.getElem?_eq_getElem hn, Option.map_some, hcolumn,
      Nat.add_sub_cancel' hstart]

/-- The lines that start in a front part and the lines that start behind it. -/
theorem startsAfter_append (offset : Nat) (front back : Text) :
    startsAfter offset (front ++ back) =
      startsAfter offset front ++ startsAfter (offset + front.byteLength) back := by
  induction front generalizing offset with
  | nil => simp [startsAfter]
  | cons c front ih =>
    simp only [List.cons_append, startsAfter, Text.byteLength_cons, ih]
    split
    · next hc =>
      rw [hc, ← Nat.add_assoc]
      rfl
    · rw [Nat.add_assoc]

theorem length_startsAfter (offset : Nat) (t : Text) : (startsAfter offset t).length = t.count '\n' := by
  induction t generalizing offset with
  | nil => rfl
  | cons c t ih =>
    rw [startsAfter]
    split
    · next hc => rw [List.length_cons, ih, hc, List.count_cons_self]
    · next hc => rw [ih, List.count_cons_of_ne hc]

theorem le_of_mem_startsAfter {offset start : Nat} {t : Text} (h : start ∈ startsAfter offset t) :
    start ≤ offset + t.byteLength := by
  induction t generalizing offset with
  | nil => cases h
  | cons c t ih =>
    have hpos := c.utf8Size_pos
    rw [startsAfter] at h
    rw [Text.byteLength_cons]
    split at h
    · rcases List.mem_cons.1 h with rfl | h
      · omega
      · have := ih h
        omega
    · have := ih h
      omega

theorem getLastD_startsAfter (offset : Nat) (t : Text) : (startsAfter offset t).getLastD offset +
    Text.byteLength (t.reverse.takeWhile (· != '\n')) = offset + t.byteLength := by
  induction t using List.reverseRecOn with
  | nil => rfl
  | append_singleton t c ih =>
    rw [startsAfter_append, List.reverse_append, List.reverse_singleton, List.singleton_append,
      List.takeWhile_cons, Text.byteLength_append, startsAfter]
    by_cases hc : c = '\n'
    · subst hc
      rw [if_pos rfl, startsAfter, List.getLastD_concat]
      rfl
    · rw [if_neg hc, startsAfter, List.append_nil, if_pos (by simpa using hc), Text.byteLength_cons,
        Text.byteLength_cons, Text.byteLength_nil]
      omega

/-- A table splits where its entries pass the offset. -/
theorem splits_append {front back : List Nat} {offset : Nat} (hfront : ∀ start ∈ front, start ≤ offset)
    (hback : ∀ start ∈ back, offset < start) :
    Splits (front ++ back).toArray offset front.length where
  le_size := by simp
  before := fun i hi => by
    have hentry : (front ++ back).toArray.getD i 0 = front[i] := by
      simp [Array.getD_eq_getD_getElem?, List.getElem?_append_left hi, List.getElem?_eq_getElem hi]
    rw [hentry]
    exact hfront _ (List.getElem_mem hi)
  after := fun i hi hsize => by
    have hi' : i - front.length < back.length := by simp at hsize; omega
    have hentry : (front ++ back).toArray.getD i 0 = back[i - front.length] := by
      simp [Array.getD_eq_getD_getElem?, List.getElem?_append_right hi, List.getElem?_eq_getElem hi']
    rw [hentry]
    exact hback _ (List.getElem_mem hi')

theorem getD_length (starts more : List Nat) :
    (0 :: starts ++ more).toArray.getD starts.length 0 = starts.getLastD 0 := by
  rcases starts.eq_nil_or_concat with rfl | ⟨earlier, last, rfl⟩
  · rfl
  · simp [Array.getD_eq_getD_getElem?]

/-- The position after a front part of a text is counted in that part. -/
theorem position_append (front back : Text) :
    (ofText (front ++ back)).position front.byteLength = .after front := by
  have hsplits := position_splits (front ++ back) front.byteLength
  have hlength := length_startsAfter 0 front
  have hlast := getLastD_startsAfter 0 front
  have hmin : min front.byteLength (ofText (front ++ back)).length = front.byteLength :=
    Nat.min_eq_left (by simp [ofText])
  have htable : (ofText (front ++ back)).starts =
      ((0 :: startsAfter 0 front) ++ startsAfter front.byteLength back).toArray := by
    rw [ofText, startsAfter_append, Nat.zero_add]
    rfl
  have hfront : Splits (ofText (front ++ back)).starts front.byteLength (front.count '\n' + 1) := by
    rw [htable, ← hlength]
    refine splits_append (List.forall_mem_cons.2 ⟨Nat.zero_le _, fun start hstart => ?_⟩)
      (startsAfter_sorted _ back).1
    exact Nat.zero_add front.byteLength ▸ le_of_mem_startsAfter hstart
  rw [hmin] at hsplits
  have hline := Nat.le_antisymm (hsplits.le hfront (Nat.le_refl _)) (hfront.le hsplits (Nat.le_refl _))
  simp only [position] at hline ⊢
  rw [hmin] at hline ⊢
  rw [hline, Position.after, htable, Nat.add_sub_cancel, ← hlength, getD_length]
  rw [Nat.zero_add] at hlast
  exact congrArg (Position.mk _) (by omega)

end LineIndex

end ServerPages
