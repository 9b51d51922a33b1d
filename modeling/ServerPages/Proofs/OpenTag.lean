import ServerPages.Proofs.Reading
import ServerPages.Proofs.Scan
import ServerPages.Proofs.Tiling

/-! An opening tag is recognised as a whole, and then its attributes are read one after another. Both
cut the text at the same places, except after a binding value that has several ends: the tag may need a
later one, and reading takes the first. -/

namespace ServerPages

namespace Attribute

theorem isSpace_of_isNameChar {c : Char} (h : isNameChar c = true) : Text.isSpace c = false := by
  simp only [isNameChar, Bool.and_eq_true, Bool.not_eq_true'] at h
  exact h.1.1

/-- A value starts after an equals sign with nothing but white space around it. -/
theorem valueStart?_eq_some_iff {t start : Text} : valueStart? t = some start ↔
    ∃ before after, before.all Text.isSpace = true ∧ after.all Text.isSpace = true ∧
      t = before ++ '=' :: (after ++ start) ∧ ∀ c ∈ start.head?, Text.isSpace c = false := by
  constructor
  · intro h
    simp only [valueStart?] at h
    split at h
    · next value ht =>
      simp only [Option.some.injEq] at h
      subst h
      refine ⟨t.takeWhile Text.isSpace, value.takeWhile Text.isSpace, List.all_takeWhile,
        List.all_takeWhile, ?_, Text.head?_dropWhile _ _⟩
      rw [Text.takeWhile_append_trimStart, ← ht, Text.takeWhile_append_trimStart]
    · simp at h
  · rintro ⟨before, after, hbefore, hafter, rfl, hstart⟩
    have hequals : Text.trimStart (before ++ '=' :: (after ++ start)) = '=' :: (after ++ start) :=
      Text.dropWhile_exact hbefore (by simp [Text.isSpace])
    have hvalue : Text.trimStart (after ++ start) = start := Text.dropWhile_exact hafter hstart
    simp only [valueStart?, hequals, hvalue]

/-- Where a value starts, it starts as well when its text is cut off further on. -/
theorem exists_of_valueStart? {t start : Text} (h : valueStart? t = some start) :
    ∃ gap, t = gap ++ start ∧
      ∀ front more, start = front ++ more → valueStart? (gap ++ front) = some front := by
  obtain ⟨before, after, hbefore, hafter, rfl, hstart⟩ := valueStart?_eq_some_iff.1 h
  refine ⟨before ++ '=' :: after, by simp, ?_⟩
  rintro front more rfl
  exact valueStart?_eq_some_iff.2
    ⟨before, after, hbefore, hafter, by simp, Text.boundary_of_append _ hstart⟩

theorem valueStart?_eq_none {t more : Text} (h : valueStart? (t ++ more) = none) :
    valueStart? t = none := by
  rw [Option.eq_none_iff_forall_ne_some]
  intro start hstart
  obtain ⟨before, after, hbefore, hafter, rfl, -⟩ := valueStart?_eq_some_iff.1 hstart
  have hequals : Text.trimStart (before ++ '=' :: (after ++ start) ++ more) =
      '=' :: (after ++ start ++ more) := by
    rw [List.append_assoc]
    exact Text.dropWhile_exact hbefore (by simp [Text.isSpace])
  simp only [valueStart?, hequals] at h
  cases h

theorem value?_eq_some_iff {t raw rest : Text} : value? t = some (raw, rest) ↔
    ∃ start, valueStart? t = some start ∧ (AttributeValue.rests start).head? = some rest ∧
      start = raw ++ rest := by
  constructor
  · intro h
    simp only [value?, Option.bind_eq_bind, Option.bind_eq_some_iff, pure, Option.some.injEq,
      Prod.mk.injEq] at h
    obtain ⟨start, hstart, _, hrest, rfl, rfl⟩ := h
    obtain ⟨raw, hraw⟩ := AttributeValue.exists_of_mem_rests (List.mem_of_head? hrest)
    exact ⟨start, hstart, hrest, by rw [hraw, Text.upTo_append]⟩
  · rintro ⟨start, hstart, hrest, hraw⟩
    simp only [value?, hstart, hrest, Option.bind_eq_bind, Option.bind_some]
    rw [hraw, Text.upTo_append]
    rfl

theorem exists_of_value? {t raw rest : Text} (h : value? t = some (raw, rest)) :
    ∃ gap, t = gap ++ raw ++ rest := by
  obtain ⟨_, hstart, -, rfl⟩ := value?_eq_some_iff.1 h
  obtain ⟨gap, rfl, -⟩ := exists_of_valueStart? hstart
  exact ⟨gap, by simp⟩

theorem read?_eq_some {start : Fragment} {a : Attribute} {rest : Text}
    (h : read? start = some (a, rest)) :
    a.place.offset = start.offset ∧ start.text = a.place.text ++ rest ∧ a.place.text ≠ [] := by
  have hsplit := List.takeWhile_append_dropWhile (p := isNameChar) (l := start.text)
  simp only [read?] at h
  split at h
  · simp at h
  · next hname =>
    have hname : start.text.takeWhile isNameChar ≠ [] := by simpa using hname
    split at h
    · next raw rest' hvalue =>
      simp only [Option.some.injEq, Prod.mk.injEq] at h
      obtain ⟨rfl, rfl⟩ := h
      obtain ⟨gap, hgap⟩ := exists_of_value? hvalue
      have htext : start.text = (start.text.takeWhile isNameChar ++ gap ++ raw) ++ rest' := by
        conv => lhs; rw [← hsplit, hgap]
        simp
      have hplace : start.text.upTo rest' = start.text.takeWhile isNameChar ++ gap ++ raw := by
        conv => lhs; rw [htext, Text.upTo_append]
      exact ⟨rfl, by rw [hplace]; exact htext, by simp [hplace, hname]⟩
    · simp only [Option.some.injEq, Prod.mk.injEq] at h
      obtain ⟨rfl, rfl⟩ := h
      exact ⟨rfl, hsplit.symm, hname⟩

end Attribute

/-- The fragments follow each other with nothing but white space in front of each, from the start of a
fragment on; `left` is what stands after the last. -/
def Spaced (start : Fragment) : List Fragment → Fragment → Prop
  | [], left => left = start
  | f :: fs, left => ∃ blank rest, blank.all Text.isSpace = true ∧
      start.text = blank ++ (f.text ++ rest) ∧ f.offset = start.offset + blank.byteLength ∧
        Spaced ⟨f.span.stop, rest⟩ fs left

namespace Spaced

variable {start left : Fragment} {fs : List Fragment} {source : Text}

theorem eq_append (h : Spaced start fs left) :
    ∃ read, start.text = read ++ left.text ∧ left.offset = start.offset + read.byteLength := by
  induction fs generalizing start with
  | nil => cases h; exact ⟨[], rfl, rfl⟩
  | cons f fs ih =>
    obtain ⟨blank, rest, -, htext, hoffset, hrest⟩ := h
    obtain ⟨read, hread, hleft⟩ := ih hrest
    refine ⟨blank ++ (f.text ++ read), ?_, ?_⟩
    · simp only at hread
      rw [htext, hread]
      simp
    · rw [hleft]
      simp only [Fragment.span, hoffset, Text.byteLength_append]
      omega

theorem bounds (h : Spaced start fs left) :
    ∀ f ∈ fs, start.span.start ≤ f.span.start ∧ f.span.stop ≤ start.span.stop := by
  induction fs generalizing start with
  | nil => simp
  | cons f fs ih =>
    obtain ⟨blank, rest, -, htext, hoffset, hrest⟩ := h
    intro g hg
    simp only [Fragment.span, htext, Text.byteLength_append]
    rcases List.mem_cons.1 hg with rfl | hg
    · omega
    · have := ih hrest g hg
      simp only [Fragment.span] at this
      omega

theorem pairwise (h : Spaced start fs left) :
    fs.Pairwise fun f g => f.span.stop ≤ g.span.start := by
  induction fs generalizing start with
  | nil => exact .nil
  | cons f fs ih =>
    obtain ⟨blank, rest, -, -, -, hrest⟩ := h
    exact .cons (fun g hg => (hrest.bounds g hg).1) (ih hrest)

theorem standsIn (h : Spaced start fs left) (hstart : start.StandsIn source) :
    (∀ f ∈ fs, f.StandsIn source) ∧ left.StandsIn source := by
  induction fs generalizing start with
  | nil => cases h; exact ⟨by simp, hstart⟩
  | cons f fs ih =>
    obtain ⟨blank, rest, -, htext, hoffset, hrest⟩ := h
    obtain ⟨front, back, hsource, hstart⟩ := hstart
    rw [htext] at hsource
    obtain ⟨hfs, hleft⟩ := ih hrest ⟨front ++ blank ++ f.text, back, by simp [hsource], by
      simp only [Fragment.span, hoffset, hstart, Text.byteLength_append]⟩
    refine ⟨?_, hleft⟩
    intro g hg
    rcases List.mem_cons.1 hg with rfl | hg
    · exact ⟨front ++ blank, rest ++ back, by simp [hsource], by
        rw [hoffset, hstart, Text.byteLength_append]⟩
    · exact hfs g hg

/-- Every gap is white space, except the one after the last fragment, which is what is left. -/
theorem gaps_blank (h : Spaced start fs left) (hstart : start.StandsIn source) :
    ∀ gap ∈ gaps start.span.start start.span.stop fs,
      (gap.text source).all Text.isSpace = true ∨ gap = left.span := by
  induction fs generalizing start with
  | nil =>
    cases h
    intro gap hgap
    exact .inr (List.mem_singleton.1 hgap)
  | cons f fs ih =>
    obtain ⟨blank, rest, hblank, htext, hoffset, hrest⟩ := h
    obtain ⟨front, back, hsource, hstart⟩ := hstart
    rw [htext] at hsource
    intro gap hgap
    rcases List.mem_cons.1 hgap with rfl | hgap
    · have hplace : Fragment.StandsIn ⟨start.offset, blank⟩ source :=
        ⟨front, f.text ++ rest ++ back, by simp [hsource], hstart⟩
      have hspan : (⟨start.span.start, f.offset⟩ : Span) = Fragment.span ⟨start.offset, blank⟩ := by
        simp [Fragment.span, hoffset]
      exact .inl (by rw [hspan, hplace.text_span]; exact hblank)
    · have hstop : start.span.stop = (Fragment.span ⟨f.span.stop, rest⟩).stop := by
        simp only [Fragment.span, htext, hoffset, Text.byteLength_append]
        omega
      rw [hstop] at hgap
      exact ih hrest ⟨front ++ blank ++ f.text, back, by simp [hsource], by
        simp only [Fragment.span, hoffset, hstart, Text.byteLength_append]⟩ gap hgap

end Spaced

namespace Attribute

theorem skipTo_append (offset : Nat) (front rest : Text) :
    Fragment.skipTo ⟨offset, front ++ rest⟩ rest = ⟨offset + front.byteLength, rest⟩ := by
  simp [Fragment.skipTo, Text.upTo_append]

theorem skipTo_rest {offset : Nat} {blank t : Text} {a : Attribute} {rest : Text}
    (h : read? ⟨offset + blank.byteLength, t⟩ = some (a, rest)) :
    Fragment.skipTo ⟨offset, blank ++ t⟩ rest = ⟨a.place.span.stop, rest⟩ := by
  obtain ⟨hoffset, htext, -⟩ := read?_eq_some h
  have htext : t = a.place.text ++ rest := htext
  rw [htext, ← List.append_assoc, skipTo_append, Fragment.span, hoffset, Text.byteLength_append,
    Nat.add_assoc]

theorem read?_name {offset : Nat} {name r : Text} (hname : name ≠ [])
    (hchars : name.all isNameChar = true) (hr : ∀ c ∈ r.head?, isNameChar c = false) :
    read? ⟨offset, name ++ r⟩ =
      match value? r with
      | none => some (⟨name, .absent, ⟨offset, name⟩⟩, r)
      | some (raw, rest) => some (⟨name, .ofRaw raw, ⟨offset, (name ++ r).upTo rest⟩⟩, rest) := by
  simp only [read?, Text.takeWhile_exact hchars hr, Text.dropWhile_exact hchars hr]
  rw [if_neg (by simpa using hname)]
  cases value? r <;> rfl

/-- Behind the white space in front of it, the next attribute is read, and then those after it. -/
theorem readAll_blank {spaced : Bool} {offset : Nat} {blank t : Text}
    (hblank : blank.all Text.isSpace = true) (ht : ∀ c ∈ t.head?, Text.isSpace c = false)
    (hspaced : spaced = true → blank ≠ []) :
    readAll spaced ⟨offset, blank ++ t⟩ =
      match read? ⟨offset + blank.byteLength, t⟩ with
      | none => ([], ⟨offset, blank ++ t⟩)
      | some (a, rest) =>
        (a :: (readAll spaced ⟨a.place.span.stop, rest⟩).1,
          (readAll spaced ⟨a.place.span.stop, rest⟩).2) := by
  have htrim : (blank ++ t).trimStart = t := Text.dropWhile_exact hblank ht
  have hproceed : ¬(spaced && t.length == (blank ++ t).length) = true := by
    cases spaced with
    | false => simp
    | true =>
      have := List.length_pos_iff.2 (hspaced rfl)
      simp only [Bool.true_and, beq_iff_eq, List.length_append]
      omega
  rw [readAll, htrim, if_neg hproceed]
  split
  · next hread =>
    rw [skipTo_append] at hread
    simp only [hread]
  · next a rest hread =>
    rw [skipTo_append] at hread
    simp only [hread, skipTo_rest hread]

/-- The attributes that are read follow each other. -/
theorem spaced_readAll (spaced : Bool) (start : Fragment) :
    Spaced start ((readAll spaced start).1.map (·.place)) (readAll spaced start).2 := by
  fun_induction readAll spaced start with
  | case1 start h => rfl
  | case2 start h hread => rfl
  | case3 start h a rest hread more left hmore ih =>
    obtain ⟨offset, text⟩ := start
    obtain ⟨blank, t, rfl, hblank, ht⟩ := text.exists_blank
    have htrim : (blank ++ t).trimStart = t := Text.dropWhile_exact hblank ht
    simp only [htrim, skipTo_append] at hread
    obtain ⟨hoffset, htext, -⟩ := read?_eq_some hread
    rw [hmore, skipTo_rest hread] at ih
    exact ⟨blank, rest, hblank, congrArg (blank ++ ·) htext, hoffset, ih⟩

end Attribute

namespace Tag

def Ending.mark (e : Ending) : Text := if e.selfClosing then ['/', '>'] else ['>']

/-- An opening tag ends at once, or has an attribute behind white space and ends after that: after the
name if no value follows, otherwise after the first end of the value that leads to an end. -/
theorem ending?_cases {t : Text} {e : Ending} (h : ending? t = some e) :
    (∃ blank, blank.all Text.isSpace = true ∧ e.attributesRest = t ∧ t = blank ++ (e.mark ++ e.rest)) ∨
      ∃ blank name r, t = blank ++ (name ++ r) ∧ blank ≠ [] ∧ blank.all Text.isSpace = true ∧
        name ≠ [] ∧ name.all Attribute.isNameChar = true ∧
        (∀ c ∈ r.head?, Attribute.isNameChar c = false) ∧
        match Attribute.valueStart? r with
        | none => ending? r = some e
        | some start => (AttributeValue.rests start).findSome? ending? = some e := by
  obtain ⟨blank, u, rfl, hblank, hu⟩ := t.exists_blank
  have htrim : (blank ++ u).trimStart = u := Text.dropWhile_exact hblank hu
  rw [ending?, htrim] at h
  split at h
  · cases h
    exact .inl ⟨blank, hblank, rfl, rfl⟩
  · cases h
    exact .inl ⟨blank, hblank, rfl, rfl⟩
  · next c cs _ _ =>
    split at h
    · next hname =>
      obtain ⟨hlength, hname⟩ := hname
      refine .inr ⟨blank, c :: cs.takeWhile Attribute.isNameChar, cs.dropWhile Attribute.isNameChar,
        by simp, ?_, hblank, by simp, by simp [hname], Text.head?_dropWhile _ _, ?_⟩
      · rintro rfl
        simp at hlength
      · split at h
        · next hstart => simp only [hstart]; exact h
        · next start hstart =>
          simp only [hstart]
          simpa using h
    · simp at h
  · simp at h

/-- A tag goes on like this up to its end: with white space and the mark at the end, or with one more
attribute in front of a text that goes on up to the same end. -/
inductive Completes (e : Ending) : Text → Prop
  | mark {blank : Text} (hblank : blank.all Text.isSpace = true)
      (hrest : e.attributesRest = blank ++ (e.mark ++ e.rest)) : Completes e e.attributesRest
  | absent {blank name r : Text} (hblank : blank.all Text.isSpace = true)
      (hname : name.all Attribute.isNameChar = true) (h : Completes e r) :
      Completes e (blank ++ (name ++ r))
  | value {blank name r start rest : Text} (hblank : blank.all Text.isSpace = true)
      (hname : name.all Attribute.isNameChar = true) (hstart : Attribute.valueStart? r = some start)
      (hrest : rest ∈ AttributeValue.rests start) (h : Completes e rest) :
      Completes e (blank ++ (name ++ r))

theorem completes_of_ending? {t : Text} {e : Ending} (h : ending? t = some e) : Completes e t := by
  induction hn : t.length using Nat.strongRecOn generalizing t with
  | ind n ih =>
    rcases ending?_cases h with
      ⟨blank, hblank, hrest, ht⟩ | ⟨blank, name, r, rfl, hne, hblank, -, hchars, -, hmore⟩
    · rw [← hrest] at ht ⊢
      exact .mark hblank ht
    have hlength := List.length_pos_iff.2 hne
    simp only [List.length_append] at hn
    split at hmore
    · exact .absent hblank hchars (ih r.length (by omega) hmore rfl)
    · next start hvalue =>
      obtain ⟨rest, hmem, he⟩ := List.exists_of_findSome?_eq_some hmore
      have hstart := Attribute.length_valueStart? hvalue
      have hrest := AttributeValue.length_lt_of_mem_rests hmem
      exact .value hblank hchars hvalue hmem (ih rest.length (by omega) he rfl)

/-- Behind its last attribute a tag has white space at most, and its mark. -/
theorem Completes.exists_blank {t : Text} {e : Ending} (h : Completes e t) :
    ∃ blank, blank.all Text.isSpace = true ∧ e.attributesRest = blank ++ (e.mark ++ e.rest) := by
  induction h with
  | mark hblank hrest => exact ⟨_, hblank, hrest⟩
  | absent _ _ _ ih => exact ih
  | value _ _ _ _ _ ih => exact ih

theorem findSome?_ending? {rests : List Text} {e : Ending} (h : rests.findSome? ending? = some e) :
    ∃ r ∈ rests, ending? r = some e ∧
      (rests.head? = some r ∨ ∃ first, rests.head? = some first ∧ ending? first = none) := by
  obtain ⟨r, hr, he⟩ := List.exists_of_findSome?_eq_some h
  cases rests with
  | nil => simp at hr
  | cons first later =>
    cases hfirst : ending? first with
    | none => exact ⟨r, hr, he, .inr ⟨first, rfl, hfirst⟩⟩
    | some e' =>
      rw [List.findSome?_cons, hfirst] at h
      cases h
      exact ⟨first, by simp, hfirst, .inl rfl⟩

end Tag

namespace Attribute

/-- A binding after which no tag can end: where its tag needs more of the text to be its value. -/
def EndsEarly (source : Text) (a : Attribute) : Prop :=
  (∃ expression encode, a.value = .binding expression encode) ∧
    ∃ after, source.dropBytes? a.place.span.stop = some after ∧ Tag.ending? after = none

/-- Reading from `start` on leaves nothing over, unless an attribute ends too early. -/
def Exhausts (source : Text) (start : Fragment) : Prop :=
  (readAll true start).2.text = [] ∨ ∃ a ∈ (readAll true start).1, a.EndsEarly source

theorem Exhausts.cons {source : Text} {start next : Fragment} {a : Attribute}
    (h : Exhausts source next)
    (hread : readAll true start = (a :: (readAll true next).1, (readAll true next).2)) :
    Exhausts source start := by
  rcases h with h | ⟨later, hlater, hearly⟩
  · exact .inl (by rw [hread, h])
  · exact .inr ⟨later, by rw [hread]; exact List.mem_cons_of_mem _ hlater, hearly⟩

section

variable (offset : Nat) {blank name r : Text} (hne : blank ≠ [])
  (hblank : blank.all Text.isSpace = true) (hname : name ≠ []) (hchars : name.all isNameChar = true)
  (hr : ∀ c ∈ r.head?, isNameChar c = false)

include hne hblank hname hchars hr

theorem readAll_name : readAll true ⟨offset, blank ++ (name ++ r)⟩ =
    match value? r with
    | none =>
      (⟨name, .absent, ⟨offset + blank.byteLength, name⟩⟩ ::
        (readAll true ⟨offset + (blank ++ name).byteLength, r⟩).1,
          (readAll true ⟨offset + (blank ++ name).byteLength, r⟩).2)
    | some (raw, rest) =>
      let place : Fragment := ⟨offset + blank.byteLength, (name ++ r).upTo rest⟩
      (⟨name, .ofRaw raw, place⟩ :: (readAll true ⟨place.span.stop, rest⟩).1,
        (readAll true ⟨place.span.stop, rest⟩).2) := by
  have hspace : ∀ c ∈ (name ++ r).head?, Text.isSpace c = false := by
    obtain ⟨d, name, rfl⟩ := List.exists_cons_of_ne_nil hname
    have hd := List.all_eq_true.1 hchars d (List.mem_cons_self ..)
    simpa using isSpace_of_isNameChar hd
  have hread : readAll true ⟨offset, blank ++ (name ++ r)⟩ = _ :=
    readAll_blank hblank hspace fun _ => hne
  rw [read?_name hname hchars hr] at hread
  rw [hread]
  cases value? r with
  | none => simp [Fragment.span, Nat.add_assoc]
  | some value => rfl

theorem readAll_absent (h : valueStart? r = none) :
    ∃ a, readAll true ⟨offset, blank ++ (name ++ r)⟩ =
      (a :: (readAll true ⟨offset + (blank ++ name).byteLength, r⟩).1,
        (readAll true ⟨offset + (blank ++ name).byteLength, r⟩).2) := by
  rw [readAll_name offset hne hblank hname hchars hr, value?, h]
  exact ⟨_, rfl⟩

theorem readAll_value {gap raw rest : Text} (heq : r = gap ++ (raw ++ rest))
    (h : valueStart? r = some (raw ++ rest))
    (hrest : (AttributeValue.rests (raw ++ rest)).head? = some rest) :
    ∃ a, a.value = .ofRaw raw ∧
      a.place.span.stop = offset + (blank ++ (name ++ (gap ++ raw))).byteLength ∧
      readAll true ⟨offset, blank ++ (name ++ r)⟩ =
        (a :: (readAll true ⟨a.place.span.stop, rest⟩).1, (readAll true ⟨a.place.span.stop, rest⟩).2) := by
  have hvalue : value? r = some (raw, rest) := value?_eq_some_iff.2 ⟨_, h, hrest, rfl⟩
  have hplace : (name ++ r).upTo rest = name ++ (gap ++ raw) := by
    have := Text.upTo_append (name ++ (gap ++ raw)) rest
    rw [heq]
    simpa using this
  rw [readAll_name offset hne hblank hname hchars hr, hvalue]
  refine ⟨_, rfl, ?_, rfl⟩
  simp [hplace, Fragment.span, Nat.add_assoc]

end

end Attribute

namespace Tag

open Attribute

/-- A value that a tag goes on after has the same end in a text that is cut off further on, unless a
binding ends earlier there, where no tag can go on. -/
theorem exists_firstEnd {start : Text} {e : Ending}
    (h : (AttributeValue.rests start).findSome? ending? = some e) :
    ∃ raw r, start = raw ++ r ∧ raw ≠ [] ∧ ending? r = some e ∧ ∀ front more, r = front ++ more →
      ∃ first, (AttributeValue.rests (raw ++ front)).head? = some first ∧
        (first = front ∨ ending? (first ++ more) = none ∧
          ∃ short, raw ++ front = short ++ first ∧ AttributeValue.IsBinding short) := by
  obtain ⟨r, hr, he, hfirst⟩ := findSome?_ending? h
  obtain ⟨raw, rfl⟩ := AttributeValue.exists_of_mem_rests hr
  refine ⟨raw, r, rfl, ?_, he, ?_⟩
  · rintro rfl
    exact absurd (AttributeValue.length_lt_of_mem_rests hr) (by simp)
  rintro front more rfl
  rw [← List.append_assoc] at hr hfirst
  obtain ⟨first, hhead, rfl | ⟨hlonger, hshort⟩⟩ := AttributeValue.head?_rests_append hr
  · exact ⟨_, hhead, .inl rfl⟩
  · refine ⟨first, hhead, ?_⟩
    rcases hfirst with hsame | ⟨first', hfirst', hnone⟩
    · rw [hlonger, Option.some.injEq] at hsame
      exact .inl (List.append_cancel_right hsame)
    · rw [hlonger, Option.some.injEq] at hfirst'
      subst hfirst'
      exact .inr ⟨hnone, hshort⟩

/-- Reading the attributes of a tag leaves nothing over, unless one of them ends too early. -/
theorem exhausts_of_ending? {source before t : Text} {e : Ending} (h : ending? t = some e)
    (hsource : source = before ++ t) :
    ∃ front, t = front ++ e.attributesRest ∧ Exhausts source ⟨before.byteLength, front⟩ := by
  induction hn : t.length using Nat.strongRecOn generalizing before t with
  | ind n ih =>
    rcases ending?_cases h with
      ⟨-, -, hrest, -⟩ | ⟨blank, name, r, rfl, hne, hblank, hname, hchars, hr, hmore⟩
    · refine ⟨[], hrest.symm, .inl ?_⟩
      obtain ⟨read, hread, -⟩ := (spaced_readAll true ⟨before.byteLength, []⟩).eq_append
      exact (List.append_eq_nil_iff.1 hread.symm).2
    subst hn
    have hlength := List.length_pos_iff.2 hne
    split at hmore
    · next hvalue =>
      obtain ⟨front, rfl, hrest⟩ := ih r.length (by simp only [List.length_append]; omega) hmore
        (show source = before ++ (blank ++ name) ++ r by simp [hsource]) rfl
      obtain ⟨a, hread⟩ := readAll_absent before.byteLength hne hblank hname hchars
        (Text.boundary_of_append _ hr) (valueStart?_eq_none hvalue)
      rw [Text.byteLength_append] at hrest
      exact ⟨blank ++ (name ++ front), by simp, hrest.cons hread⟩
    · next start hvalue =>
      obtain ⟨gap, rfl, hstart⟩ := exists_of_valueStart? hvalue
      obtain ⟨raw, r, rfl, hraw, he, hend⟩ := exists_firstEnd hmore
      obtain ⟨front, rfl, hrest⟩ := ih r.length (by simp only [List.length_append]; omega) he
        (show source = before ++ (blank ++ (name ++ (gap ++ raw))) ++ r by simp [hsource]) rfl
      obtain ⟨first, hfirst, hcut⟩ := hend front e.attributesRest rfl
      obtain ⟨short, hshort⟩ := AttributeValue.exists_of_mem_rests (List.mem_of_head? hfirst)
      have hboundary : ∀ c ∈ (gap ++ (raw ++ front)).head?, Attribute.isNameChar c = false :=
        Text.boundary_of_append e.attributesRest (by simpa using hr)
      have hstart := hstart (raw ++ front) e.attributesRest (by simp)
      rw [hshort] at hfirst hboundary hstart
      refine ⟨blank ++ (name ++ (gap ++ (short ++ first))), by simp [← hshort], ?_⟩
      obtain ⟨a, hbinding, hstop, hread⟩ := readAll_value before.byteLength hne hblank
        hname hchars hboundary rfl hstart hfirst
      rcases hcut with rfl | ⟨hnone, short', hshort', hisBinding⟩
      · rw [List.append_cancel_right hshort, Text.byteLength_append, ← hstop] at hrest
        exact hrest.cons hread
      · rw [hshort] at hshort'
        rw [List.append_cancel_right hshort'] at hbinding
        refine .inr ⟨a, by rw [hread]; exact List.mem_cons_self .., ?_, first ++ e.attributesRest, ?_,
          hnone⟩
        · rw [hbinding]
          exact hisBinding.ofRaw
        · have hafter : raw ++ (front ++ e.attributesRest) = short ++ (first ++ e.attributesRest) := by
            rw [← List.append_assoc, hshort, List.append_assoc]
          have hdrop := Text.dropBytes?_append (before ++ (blank ++ (name ++ (gap ++ short))))
            (first ++ e.attributesRest)
          rw [hstop, hsource, ← Text.byteLength_append, hafter]
          simpa using hdrop

end Tag

namespace Lexeme

theorem scanBlock_ne_openTag (t name attributes : Text) (selfClosing : Bool) :
    (scanBlock t).token ≠ .openTag name attributes selfClosing := by
  have hcode : ∀ body, codeToken body ≠ .openTag name attributes selfClosing := by
    intro body
    unfold codeToken
    split <;> simp
  unfold scanBlock
  dsimp only
  split
  · split <;> simp
  · split
    · split <;> simp
    · simp
  · split
    · exact hcode _
    · simp

theorem scanClosing_ne_openTag (t name attributes : Text) (selfClosing : Bool) :
    (scanClosing t).token ≠ .openTag name attributes selfClosing := by
  unfold scanClosing
  dsimp only
  split
  · simp
  · split <;> simp [ofText]

/-- An opening tag is a name and all that the tag grammar takes up to its end. -/
theorem exists_of_scan_openTag {t name attributes text : Text} {selfClosing : Bool}
    (h : scan t = ⟨.openTag name attributes selfClosing, text⟩) :
    ∃ e, t = '<' :: (name ++ (attributes ++ e.attributesRest)) ∧
      name ≠ [] ∧ name.all Tag.isNameChar = true ∧
      Tag.ending? (attributes ++ e.attributesRest) = some e ∧ e.selfClosing = selfClosing ∧
      t = text ++ e.rest := by
  have hne : t ≠ [] := by
    rintro rfl
    simp [scan] at h
  rcases scan_cases hne with ⟨body, -, hscan⟩ | ⟨rest, -, hscan⟩ | ⟨rest, rfl, hscan⟩ | ⟨c, rest, -, -, hscan⟩
  · exact absurd (congrArg Lexeme.token (hscan ▸ h)) (scanBlock_ne_openTag _ _ _ _)
  · exact absurd (congrArg Lexeme.token (hscan ▸ h)) (scanClosing_ne_openTag _ _ _ _)
  · rw [hscan] at h
    simp only [scanOpening] at h
    split at h
    · next d name' e hname hending =>
      obtain ⟨front, hfront, -⟩ := Tag.exhausts_of_ending? hending (List.nil_append _).symm
      have hsplit := List.takeWhile_append_dropWhile (p := Tag.isNameChar) (l := rest)
      obtain ⟨blank, -, hmark⟩ := (Tag.completes_of_ending? hending).exists_blank
      have hread : rest = (rest.takeWhile Tag.isNameChar ++ (front ++ (blank ++ e.mark))) ++ e.rest := by
        conv => lhs; rw [← hsplit, hfront, hmark]
        simp
      have hwhole : '<' :: rest = ('<' :: Text.upTo rest e.rest) ++ e.rest := by
        conv => rhs; rw [hread, Text.upTo_append]
        rw [List.cons_append, ← hread]
      simp only [Lexeme.mk.injEq, Token.openTag.injEq] at h
      obtain ⟨⟨rfl, rfl, rfl⟩, rfl⟩ := h
      refine ⟨e, ?_, by simp [hname], List.all_takeWhile, ?_, rfl, hwhole⟩
      · rw [hfront, Text.upTo_append, ← hfront, hsplit]
      · rw [hfront, Text.upTo_append, ← hfront, hending]
    · split at h <;> simp [ofText] at h
  · rw [hscan] at h
    simp [ofText] at h

end Lexeme

/-- The attributes of an opening tag stand in its text in order, with nothing but white space between
them; only behind the last may something be left over, and then a binding among them ends where the tag
could not have gone on. -/
theorem ofTag_spaced {source : Text} {offset : Nat} {name attributes text : Text} {selfClosing : Bool}
    (h : Lexeme.at? source offset = some ⟨.openTag name attributes selfClosing, text⟩) :
    let start : Fragment := ⟨(Token.openTag name attributes selfClosing).innerOffset offset, attributes⟩
    let places := (Attribute.ofTag start).map (·.place)
    start.StandsIn source ∧
      places.Pairwise (fun a b => a.span.stop ≤ b.span.start) ∧
      (∀ place ∈ places, place.StandsIn source ∧
        start.span.start ≤ place.span.start ∧ place.span.stop ≤ start.span.stop) ∧
      ∀ gap ∈ gaps start.span.start start.span.stop places,
        (gap.text source).all Text.isSpace = true ∨
          gap.stop = start.span.stop ∧ ∃ a ∈ Attribute.ofTag start, a.EndsEarly source := by
  intro start places
  obtain ⟨t, ht, hscan⟩ := Option.map_eq_some_iff.1 h
  obtain ⟨front, hfront, hoffset⟩ := Text.dropBytes?_eq_some ht
  obtain ⟨e, rfl, -, -, hending, -, -⟩ := Lexeme.exists_of_scan_openTag hscan
  have hsource : source = (front ++ '<' :: name) ++ (attributes ++ e.attributesRest) := by
    simp [hfront]
  have hstart : start.offset = (front ++ '<' :: name).byteLength := by
    have hmark : ('<' : Char).utf8Size = 1 := by decide
    simp [start, Token.innerOffset, hoffset, hmark, Nat.add_assoc]
  have hstands : start.StandsIn source := ⟨_, e.attributesRest, hsource, hstart⟩
  have hspaced : Spaced start places (Attribute.readAll true start).2 := Attribute.spaced_readAll true start
  refine ⟨hstands, hspaced.pairwise,
    fun place hplace => ⟨(hspaced.standsIn hstands).1 place hplace, hspaced.bounds place hplace⟩, ?_⟩
  obtain ⟨_, hfront', hexhausts⟩ := Tag.exhausts_of_ending? hending hsource
  rw [← List.append_cancel_right hfront', ← hstart] at hexhausts
  obtain ⟨read, hread, hleft⟩ := hspaced.eq_append
  intro gap hgap
  rcases hspaced.gaps_blank hstands gap hgap with hblank | rfl
  · exact .inl hblank
  rcases hexhausts with hnil | hearly
  · exact .inl (by rw [(hspaced.standsIn hstands).2.text_span, hnil]; rfl)
  · refine .inr ⟨?_, hearly⟩
    simp only [Fragment.span, hread, hleft, Text.byteLength_append, Nat.add_assoc]

/-- Behind a binding with two ends an attribute is lost: the tag needs the second end, reading takes the
first. -/
theorem ofTag_spaced_twoEnds :
    let source := "<asp:Label Text=<%#a%>b%> runat=\"server\"/>".toList
    ∃ a ∈ Attribute.ofTag ⟨10, " Text=<%#a%>b%> runat=\"server\"".toList⟩, a.EndsEarly source := by
  have htag : Lexeme.at? "<asp:Label Text=<%#a%>b%> runat=\"server\"/>".toList 0 =
      some ⟨.openTag "asp:Label".toList " Text=<%#a%>b%> runat=\"server\"".toList true,
        "<asp:Label Text=<%#a%>b%> runat=\"server\"/>".toList⟩ := by
    decide +kernel
  obtain ⟨-, -, -, hgaps⟩ := ofTag_spaced htag
  have hgap := hgaps ⟨22, 40⟩ (by decide +kernel)
  exact (hgap.resolve_left (by decide +kernel)).2

theorem ofTag_leaves_text :
    let source := "<asp:Label Text=<%#a%>b%> runat=\"server\"/>".toList
    let start : Fragment := ⟨10, " Text=<%#a%>b%> runat=\"server\"".toList⟩
    Lexeme.at? source 0 = some ⟨.openTag "asp:Label".toList start.text true, source⟩ ∧
      ∃ gap ∈ gaps start.span.start start.span.stop ((Attribute.ofTag start).map (·.place)),
        (gap.text source).all Text.isSpace = false := by
  refine ⟨by decide +kernel, ⟨22, 40⟩, by decide +kernel, by decide +kernel⟩

end ServerPages
