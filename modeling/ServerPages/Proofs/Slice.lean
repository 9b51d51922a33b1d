import ServerPages.Source.Span

/-! Text cut in two. What `after?` and `cut?` find is a part of the text they search, and a byte offset
that ends a front part of a page names what follows it. So the span of a fragment that stands in a page
gives back the fragment's text. -/

namespace ServerPages

namespace Text

@[simp] theorem byteLength_nil : byteLength [] = 0 := rfl

@[simp] theorem byteLength_cons (c : Char) (t : Text) :
    byteLength (c :: t) = c.utf8Size + byteLength t := rfl

@[simp] theorem byteLength_append (a b : Text) :
    byteLength (a ++ b) = byteLength a + byteLength b := by
  induction a with
  | nil => simp
  | cons c a ih => simp only [List.cons_append, byteLength_cons, ih, Nat.add_assoc]

theorem byteLength_pos {t : Text} (h : t ≠ []) : 0 < byteLength t := by
  cases t with
  | nil => exact absurd rfl h
  | cons c t =>
    have := c.utf8Size_pos
    rw [byteLength_cons]
    omega

theorem after?_eq_some {t start rest : Text} (h : t.after? start = some rest) :
    t = start ++ rest := by
  induction start generalizing t with
  | nil => simpa [after?] using h
  | cons s start ih =>
    cases t with
    | nil => simp [after?] at h
    | cons c t =>
      simp only [after?] at h
      split at h
      · next hc => rw [hc, ih h, List.cons_append]
      · simp at h

theorem cut?_eq_some {t mark front back : Text} (h : t.cut? mark = some (front, back)) :
    t = front ++ (mark ++ back) := by
  induction t generalizing front with
  | nil => simp [cut?] at h
  | cons c t ih =>
    simp only [cut?] at h
    split at h
    · next back' ha =>
      simp only [Option.some.injEq, Prod.mk.injEq] at h
      obtain ⟨rfl, rfl⟩ := h
      rw [List.nil_append, after?_eq_some ha]
    · obtain ⟨⟨front', back'⟩, hcut, he⟩ := Option.map_eq_some_iff.1 h
      simp only [Prod.mk.injEq] at he
      obtain ⟨rfl, rfl⟩ := he
      rw [ih hcut, List.cons_append]

theorem length_of_cut? {t mark front back : Text} (h : t.cut? mark = some (front, back)) :
    front.length + (mark.length + back.length) = t.length := by
  rw [cut?_eq_some h, List.length_append, List.length_append]

theorem isPrefix_upTo (t rest : Text) : t.upTo rest <+: t := List.take_prefix _ _

theorem dropBytes?_cons_add (c : Char) (t : Text) (n : Nat) :
    dropBytes? (c.utf8Size + n) (c :: t) = dropBytes? n t := by
  have hc := c.utf8Size_pos
  obtain ⟨m, hm⟩ : ∃ m, c.utf8Size + n = m + 1 := ⟨c.utf8Size + n - 1, by omega⟩
  rw [hm, dropBytes?, if_pos (by omega), show m + 1 - c.utf8Size = n by omega]

theorem takeBytes?_cons_add (c : Char) (t : Text) (n : Nat) :
    takeBytes? (c.utf8Size + n) (c :: t) = (takeBytes? n t).map (c :: ·) := by
  have hc := c.utf8Size_pos
  obtain ⟨m, hm⟩ : ∃ m, c.utf8Size + n = m + 1 := ⟨c.utf8Size + n - 1, by omega⟩
  rw [hm, takeBytes?, if_pos (by omega), show m + 1 - c.utf8Size = n by omega]

/-- The bytes of a front part lead to what follows it. -/
theorem dropBytes?_append (front back : Text) :
    dropBytes? front.byteLength (front ++ back) = some back := by
  induction front with
  | nil => simp [dropBytes?]
  | cons c front ih => rw [List.cons_append, byteLength_cons, dropBytes?_cons_add, ih]

theorem takeBytes?_append (front back : Text) :
    takeBytes? front.byteLength (front ++ back) = some front := by
  induction front with
  | nil => simp [takeBytes?]
  | cons c front ih =>
    rw [List.cons_append, byteLength_cons, takeBytes?_cons_add, ih, Option.map_some]

end Text

/-- The fragment is the text that the page has at its offset. -/
def Fragment.StandsIn (f : Fragment) (source : Text) : Prop :=
  ∃ front back, source = front ++ (f.text ++ back) ∧ f.offset = front.byteLength

namespace Fragment

variable {f : Fragment} {source : Text}

/-- The span of a fragment that stands in a page slices the page to the fragment's text. -/
theorem StandsIn.text_span (h : f.StandsIn source) : f.span.text source = f.text := by
  obtain ⟨front, back, rfl, ho⟩ := h
  have hlen : f.span.length? = some f.text.byteLength := by simp [span, Span.length?]
  simp only [Span.text, hlen, show f.span.start = front.byteLength from ho,
    Text.dropBytes?_append, Text.takeBytes?_append, Option.getD_some]

theorem StandsIn.stop_le (h : f.StandsIn source) : f.span.stop ≤ source.byteLength := by
  obtain ⟨front, back, rfl, ho⟩ := h
  simp only [span, ho, Text.byteLength_append]
  omega

end Fragment

end ServerPages
