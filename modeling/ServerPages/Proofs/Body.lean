import Mathlib.Logic.ExistsUnique
import ServerPages.Proofs.Kept
import ServerPages.Proofs.Pointing

/-! The body of a directive is accounted for. The name, the attributes and the text that is neither follow
each other in it, and all that is in front of them, between them and behind them is white space. Where
there is no name, the attributes begin with those that a tag would have with the same text. -/

namespace ServerPages

namespace Text

/-- Whether byte `i` of the text belongs to a character that is no white space. -/
def inkAt : Text → Nat → Bool
  | [], _ => false
  | c :: t, i => if i < c.utf8Size then !isSpace c else inkAt t (i - c.utf8Size)

theorem inkAt_append (a b : Text) (i : Nat) :
    inkAt (a ++ b) i = if i < a.byteLength then inkAt a i else inkAt b (i - a.byteLength) := by
  induction a generalizing i with
  | nil => simp
  | cons c a ih =>
    rw [List.cons_append, inkAt, inkAt, ih, byteLength_cons]
    by_cases hc : i < c.utf8Size
    · rw [if_pos hc, if_pos hc, if_pos (by omega)]
    · rw [if_neg hc, if_neg hc, Nat.sub_sub]
      by_cases ha : i - c.utf8Size < byteLength a
      · rw [if_pos ha, if_pos (by omega)]
      · rw [if_neg ha, if_neg (by omega)]

theorem inkAt_of_blank {t : Text} (h : t.all isSpace = true) (i : Nat) : inkAt t i = false := by
  induction t generalizing i with
  | nil => rfl
  | cons c t ih =>
    rw [List.all_cons, Bool.and_eq_true] at h
    rw [inkAt, h.1, ih h.2]
    split <;> rfl

theorem exists_trim (t : Text) : ∃ before after, t = before ++ (t.trim ++ after) ∧
    t.trimStart = t.trim ++ after ∧ before.all isSpace = true ∧ after.all isSpace = true := by
  refine ⟨t.takeWhile isSpace, (t.trimStart.reverse.takeWhile isSpace).reverse, ?_, t.trimStart_eq,
    List.all_takeWhile, ?_⟩
  · rw [← trimStart_eq, takeWhile_append_trimStart]
  · rw [List.all_reverse]
    exact List.all_takeWhile

end Text

/-- The span counted from an offset on, in words. -/
def Span.since (s : Span) (offset : Nat) : Span :=
  ⟨(s.start + (wordSize - offset % wordSize)) % wordSize,
    (s.stop + (wordSize - offset % wordSize)) % wordSize⟩

/-- The fragment is a piece of `body`, which starts at `offset`. So its span, as it is kept, counted from
there says where in the body it stands, as long as that is in the range of a word. -/
def Fragment.PieceOf (f : Fragment) (offset : Nat) (body : Text) : Prop :=
  ∃ front back, body = front ++ (f.text ++ back) ∧ f.offset = offset + front.byteLength ∧
    (body.byteLength < wordSize → f.span.stored.since offset = Fragment.span ⟨front.byteLength, f.text⟩)

theorem Span.since_stored {start stop : Nat} (offset : Nat) (hstart : start < wordSize)
    (hstop : stop < wordSize) :
    (stored ⟨offset + start, offset + stop⟩).since offset = ⟨start, stop⟩ := by
  unfold wordSize at *
  simp only [stored, since, wordSize, Span.mk.injEq]
  omega

namespace Spaced

variable {start mid left : Fragment} {fs gs : List Fragment}

theorem append (h : Spaced start fs mid) (hrest : Spaced mid gs left) : Spaced start (fs ++ gs) left := by
  induction fs generalizing start with
  | nil => cases h; exact hrest
  | cons f fs ih =>
    obtain ⟨blank, rest, hblank, htext, hoffset, h⟩ := h
    exact ⟨blank, rest, hblank, htext, hoffset, ih h⟩

theorem exists_parts (h : Spaced start fs left) : ∀ f ∈ fs, ∃ front back,
    start.text = front ++ (f.text ++ back) ∧ f.offset = start.offset + front.byteLength := by
  intro f hf
  induction fs generalizing start with
  | nil => cases hf
  | cons g fs ih =>
    obtain ⟨blank, rest, -, htext, hoffset, hrest⟩ := h
    rcases List.mem_cons.1 hf with rfl | hf
    · exact ⟨blank, rest, htext, hoffset⟩
    · obtain ⟨front, back, hmore, hplace⟩ := ih hrest hf
      refine ⟨blank ++ (g.text ++ front), back, ?_, ?_⟩
      · rw [htext, show rest = _ from hmore]
        simp
      · rw [hplace]
        simp only [Fragment.span, hoffset, Text.byteLength_append, Nat.add_assoc]

theorem pieceOf (h : Spaced start fs left) : ∀ f ∈ fs, f.PieceOf start.offset start.text := by
  intro f hf
  obtain ⟨front, back, htext, hoffset⟩ := h.exists_parts f hf
  refine ⟨front, back, htext, hoffset, fun hlength => ?_⟩
  rw [htext] at hlength
  simp only [Text.byteLength_append] at hlength
  rw [Fragment.span, hoffset, Nat.add_assoc]
  exact Span.since_stored start.offset (by omega) (by omega)

theorem exists_holds (h : Spaced start fs left) (hleft : left.text.all Text.isSpace = true) {i : Nat}
    (hink : start.text.inkAt i = true) : ∃ f ∈ fs, f.span.holds (start.offset + i) = true := by
  induction fs generalizing start i with
  | nil =>
    cases h
    rw [Text.inkAt_of_blank hleft] at hink
    cases hink
  | cons f fs ih =>
    obtain ⟨blank, rest, hblank, htext, hoffset, hrest⟩ := h
    rw [htext, Text.inkAt_append, Text.inkAt_of_blank hblank] at hink
    split at hink
    · cases hink
    next hbefore =>
    rw [Text.inkAt_append] at hink
    split at hink
    · next hin =>
      refine ⟨f, List.mem_cons_self .., Span.holds_iff.2 ?_⟩
      simp only [Fragment.span, hoffset]
      omega
    · next hbehind =>
      obtain ⟨g, hg, hholds⟩ := ih hrest hink
      refine ⟨g, List.mem_cons_of_mem _ hg, ?_⟩
      have hi : f.span.stop + (i - blank.byteLength - f.text.byteLength) = start.offset + i := by
        simp only [Fragment.span, hoffset]
        omega
      rwa [← hi]

/-- What is no white space stands in one of the fragments, and in no other. -/
theorem existsUnique_holds (h : Spaced start fs left) (hleft : left.text.all Text.isSpace = true)
    {i : Nat} (hink : start.text.inkAt i = true) :
    ∃! f, f ∈ fs ∧ f.span.holds (start.offset + i) = true := by
  obtain ⟨f, hf, hholds⟩ := h.exists_holds hleft hink
  refine ⟨f, ⟨hf, hholds⟩, ?_⟩
  rintro g ⟨hg, hgholds⟩
  have hapart : fs.Pairwise fun a b => a.span.Apart b.span := h.pairwise.imp fun hab => .inl hab
  have : Std.Symm fun a b : Fragment => a.span.Apart b.span := ⟨fun _ _ hab => Or.symm hab⟩
  by_contra hne
  rw [(hapart.forall hg hf hne).not_holds hgholds] at hholds
  cases hholds

end Spaced

namespace Attribute

theorem head?_of_read?_eq_none {start : Fragment} (h : read? start = none) :
    ∀ c ∈ start.text.head?, isNameChar c = false := by
  have hboundary := Text.head?_dropWhile isNameChar start.text
  simp only [read?] at h
  split at h
  · next hname =>
    have hsplit := List.takeWhile_append_dropWhile (p := isNameChar) (l := start.text)
    rw [List.isEmpty_iff.1 hname, List.nil_append] at hsplit
    rwa [hsplit] at hboundary
  · split at h <;> cases h

theorem readAll_false_of_read? {start : Fragment} {a : Attribute} {rest : Text}
    (h : read? (start.skipTo start.text.trimStart) = some (a, rest)) :
    readAll false start =
      (a :: (readAll false (start.skipTo rest)).1, (readAll false (start.skipTo rest)).2) := by
  rw [readAll, Bool.false_and, if_neg Bool.false_ne_true]
  split
  · next hnone => rw [h] at hnone; cases hnone
  · next hread =>
    rw [h] at hread
    cases hread
    rfl

theorem readAll_prefix (start : Fragment) : (readAll true start).1 <+: (readAll false start).1 := by
  fun_induction readAll true start with
  | case1 start hblank => exact List.nil_prefix
  | case2 start hblank hread => exact List.nil_prefix
  | case3 start hblank a rest hread more left hmore ih =>
    rw [readAll_false_of_read? hread, List.cons_prefix_cons]
    rw [hmore] at ih
    exact ⟨rfl, ih⟩

theorem head?_left_readAll (start : Fragment) :
    ∀ c ∈ (readAll false start).2.text.trimStart.head?, isNameChar c = false := by
  fun_induction readAll false start with
  | case1 start hblank => simp at hblank
  | case2 start hblank hread => exact head?_of_read?_eq_none hread
  | case3 start hblank a rest hread more left hmore ih => rwa [hmore] at ih

end Attribute

namespace DirectiveBody

variable {start : Fragment}

/-- The characters that no attribute starts with. -/
def stops : List Char := ['\x22', '\x27', '<', '>', '/', '=', '%']

theorem mem_stops {c : Char} (hspace : Text.isSpace c = false) (hname : Attribute.isNameChar c = false) :
    c ∈ stops := by
  simp only [Attribute.isNameChar, hspace, AttributeValue.isQuote, Bool.not_false, Bool.true_and,
    Bool.and_eq_false_iff, Bool.not_eq_false', Bool.or_eq_true, beq_iff_eq, List.contains_iff_mem] at hname
  simp only [stops, List.mem_cons] at hname ⊢
  tauto

/-- From the start of a body to its attributes there is white space and the name, if it has one. -/
theorem spaced_name (start : Fragment) : ∃ named : Option Fragment,
    named.map (·.text) = (name? start.text).map Prod.fst ∧ (∀ f ∈ named, f.text ≠ []) ∧
      Spaced start named.toList (start.skipTo (((name? start.text).map Prod.snd).getD start.text)) := by
  obtain ⟨offset, body⟩ := start
  cases hname : name? body with
  | none => exact ⟨none, rfl, by simp, Attribute.skipTo_append offset [] body⟩
  | some parts =>
    obtain ⟨word, rest⟩ := parts
    obtain ⟨blank, hblank, hword, rfl⟩ := exists_of_name? hname
    refine ⟨some ⟨offset + blank.byteLength, word⟩, rfl, by simpa using hword, blank, rest, hblank, rfl,
      rfl, ?_⟩
    show Fragment.skipTo ⟨offset, blank ++ (word ++ rest)⟩ rest = _
    rw [← List.append_assoc, Attribute.skipTo_append, Text.byteLength_append, ← Nat.add_assoc]
    rfl

/-- Behind the attributes there is white space around what is left over, if anything is. -/
theorem spaced_leftover (f : Fragment) : ∃ left : Fragment, left.text.all Text.isSpace = true ∧
    Spaced f (if (trimmed f).text.isEmpty then none else some (trimmed f)).toList left := by
  obtain ⟨offset, t⟩ := f
  obtain ⟨before, after, ht, hstart, hbefore, hafter⟩ := t.exists_trim
  split
  · next hempty =>
    have hnil : t.trim = [] := List.isEmpty_iff.1 hempty
    refine ⟨⟨offset, t⟩, ?_, rfl⟩
    rw [hnil, List.nil_append] at ht
    rw [ht, List.all_append, hbefore, hafter]
    rfl
  · have hoffset : (trimmed ⟨offset, t⟩).offset = offset + before.byteLength := by
      have hskip := Attribute.skipTo_append offset before (t.trim ++ after)
      rw [← ht, ← hstart] at hskip
      exact congrArg Fragment.offset hskip
    exact ⟨⟨(trimmed ⟨offset, t⟩).span.stop, after⟩, hafter, before, after, hbefore, ht, hoffset, rfl⟩

/-- The name, the attributes and what is left over stand in the body in this order, with nothing but white
space around them. -/
theorem spaced_read (start : Fragment) : ∃ (named : Option Fragment) (left : Fragment),
    named.map (·.text) = (read start).name ∧ (∀ f ∈ named, f.text ≠ []) ∧
      left.text.all Text.isSpace = true ∧
      Spaced start (named.toList ++ ((read start).attributes.map (·.place) ++
        (read start).leftover.toList)) left := by
  obtain ⟨named, hnamed, hne, hname⟩ := spaced_name start
  obtain ⟨left, hleft, hleftover⟩ := spaced_leftover (Attribute.readAll false
    (start.skipTo (((name? start.text).map Prod.snd).getD start.text))).2
  exact ⟨named, left, hnamed, hne, hleft,
    hname.append ((Attribute.spaced_readAll false _).append hleftover)⟩

theorem leftover_read {leftover : Fragment} (h : (read start).leftover = some leftover) :
    (∃ c ∈ leftover.text.head?, Text.isSpace c = false ∧ c ∈ stops) ∧
      ∀ c ∈ leftover.text.getLast?, Text.isSpace c = false := by
  have hhead := Attribute.head?_left_readAll
    (start.skipTo (((name? start.text).map Prod.snd).getD start.text))
  unfold read at h
  dsimp only at h
  generalize (Attribute.readAll false (start.skipTo
    (((name? start.text).map Prod.snd).getD start.text))).2 = left at h hhead
  split at h
  · cases h
  · next hempty =>
    cases h
    obtain ⟨hfirst, hlast⟩ := left.text.ends_trim
    obtain ⟨_, after, -, hstart, -, -⟩ := left.text.exists_trim
    rw [hstart] at hhead
    have hne : left.text.trim ≠ [] := fun hnil => hempty (List.isEmpty_iff.2 hnil)
    have hc : left.text.trim.head hne ∈ left.text.trim.head? := List.head_mem_head? hne
    exact ⟨⟨_, hc, hfirst _ hc, mem_stops (hfirst _ hc) (Text.boundary_of_append after hhead _ hc)⟩,
      hlast⟩

/-- A body is read as a name, attributes and what is left over, in this order and apart from each other.
Everything in it that is no white space stands in exactly one of them. An attribute is written with its
name first. What is left over is trimmed and starts with a character that starts no attribute. And without
a name the attributes are at first those of a tag with the same text. -/
theorem read_complete (offset : Nat) (body : Text) :
    let directive := read ⟨offset, body⟩
    ∃ named : Option Fragment, named.map (·.text) = directive.name ∧
      let pieces := named.toList ++ (directive.attributes.map (·.place) ++ directive.leftover.toList)
      pieces.Pairwise (fun a b => a.span.stop ≤ b.span.start) ∧
      (∀ piece ∈ pieces, piece.text ≠ [] ∧ piece.PieceOf offset body) ∧
      (∀ i, body.inkAt i = true →
        ∃! piece, piece ∈ pieces ∧ piece.span.holds (offset + i) = true) ∧
      (∀ a ∈ directive.attributes, a.name ≠ [] ∧ a.name <+: a.place.text) ∧
      (∀ leftover ∈ directive.leftover,
        (∃ c ∈ leftover.text.head?, Text.isSpace c = false ∧ c ∈ stops) ∧
        ∀ c ∈ leftover.text.getLast?, Text.isSpace c = false) ∧
      (directive.name = none → Attribute.ofTag ⟨offset, body⟩ <+: directive.attributes) := by
  intro directive
  obtain ⟨named, left, hnamed, hne, hleft, hspaced⟩ := spaced_read ⟨offset, body⟩
  have hread : ∀ a ∈ directive.attributes, a.name ≠ [] ∧ a.name <+: a.place.text :=
    fun a ha => (Attribute.isRead_of_mem_readAll ha).starts
  refine ⟨named, hnamed, hspaced.pairwise, fun piece hpiece => ⟨?_, hspaced.pieceOf piece hpiece⟩,
    fun i hink => hspaced.existsUnique_holds hleft hink, hread,
    fun _ hleftover => leftover_read hleftover, fun hnone => ?_⟩
  · rcases List.mem_append.1 hpiece with hpiece | hpiece
    · exact hne piece (Option.mem_toList.1 hpiece)
    rcases List.mem_append.1 hpiece with hpiece | hpiece
    · obtain ⟨a, ha, rfl⟩ := List.mem_map.1 hpiece
      obtain ⟨hname, hstarts⟩ := hread a ha
      exact hstarts.ne_nil hname
    · obtain ⟨⟨c, hc, -⟩, -⟩ := leftover_read (Option.mem_toList.1 hpiece)
      exact fun hnil => by rw [hnil] at hc; cases hc
  · have hname : name? body = none := Option.map_eq_none_iff.1 hnone
    have hstart : Fragment.skipTo ⟨offset, body⟩ body = ⟨offset, body⟩ :=
      Attribute.skipTo_append offset [] body
    have hprefix := Attribute.readAll_prefix ⟨offset, body⟩
    show _ <+: (Attribute.readAll false (Fragment.skipTo ⟨offset, body⟩
      (((name? body).map Prod.snd).getD body))).1
    rw [hname, Option.map_none, Option.getD_none, hstart]
    exact hprefix

end DirectiveBody

end ServerPages
