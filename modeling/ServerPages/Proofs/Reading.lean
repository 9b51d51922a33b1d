import ServerPages.Proofs.Slice
import ServerPages.Markup.Attribute

/-! Reading attributes one after another. What is read stands in the text in order, with nothing but
white space in front of each attribute, and ends where no attribute follows. A binding value may end at
several places, and more of them as the text goes on; the first of them is the same in every
continuation of the text. -/

namespace ServerPages

namespace Text

theorem after?_append (start rest : Text) : (start ++ rest).after? start = some rest := by
  induction start with
  | nil => cases rest <;> rfl
  | cons s start ih => simpa [after?] using ih

theorem after?_eq_some_iff {t start rest : Text} : t.after? start = some rest ↔ t = start ++ rest :=
  ⟨after?_eq_some, fun h => h ▸ after?_append start rest⟩

theorem after?_eq_none {t mark : Text} (h : ∀ rest, t ≠ mark ++ rest) : t.after? mark = none := by
  rw [Option.eq_none_iff_forall_ne_some]
  exact fun rest hrest => h rest (after?_eq_some hrest)

theorem upTo_append (front rest : Text) : upTo (front ++ rest) rest = front := by
  simp [upTo]

theorem takeWhile_append_trimStart (t : Text) : t.takeWhile isSpace ++ t.trimStart = t :=
  List.takeWhile_append_dropWhile

theorem trimStart_eq (t : Text) :
    t.trimStart = t.trim ++ (t.trimStart.reverse.takeWhile isSpace).reverse := by
  rw [trim, trimEnd, ← List.reverse_append, takeWhile_append_trimStart, List.reverse_reverse]

theorem restsAfter_eq_nil {t mark : Text} (h : t.length < mark.length) : t.restsAfter mark = [] := by
  induction t with
  | nil => rfl
  | cons c t ih =>
    have hnone : after? (c :: t) mark = none := by
      rw [Option.eq_none_iff_forall_ne_some]
      intro rest hrest
      have := length_after? hrest
      omega
    rw [restsAfter, hnone]
    exact ih (by simp only [List.length_cons] at h; omega)

theorem after?_append_eq_some {t mark rest : Text} (h : t.after? mark = some rest) (more : Text) :
    (t ++ more).after? mark = some (rest ++ more) := by
  rw [after?_eq_some_iff] at h ⊢
  rw [h, List.append_assoc]

/-- A mark that fits into the text and does not start it starts no longer text either. -/
theorem after?_append_eq_none {t mark : Text} (h : t.after? mark = none)
    (hlength : mark.length ≤ t.length) (more : Text) : (t ++ more).after? mark = none := by
  rw [Option.eq_none_iff_forall_ne_some]
  intro rest hrest
  obtain ⟨u, rfl⟩ : mark <+: t := List.prefix_of_prefix_length_le
    ⟨rest, (after?_eq_some hrest).symm⟩ (List.prefix_append _ _) hlength
  rw [after?_append] at h
  cases h

theorem holds_iff {t mark : Text} (hmark : mark ≠ []) :
    t.holds mark = true ↔ ∃ front back, t = front ++ (mark ++ back) := by
  constructor
  · intro h
    obtain ⟨⟨front, back⟩, hcut⟩ := Option.isSome_iff_exists.1 h
    exact ⟨front, back, cut?_eq_some hcut⟩
  · rintro ⟨front, back, rfl⟩
    induction front with
    | nil =>
      obtain ⟨c, mark, rfl⟩ := List.exists_cons_of_ne_nil hmark
      have hafter := after?_append (c :: mark) back
      rw [List.cons_append] at hafter
      simp only [List.nil_append, List.cons_append, holds, cut?, hafter, Option.isSome_some]
    | cons c front ih =>
      simp only [List.cons_append, holds, cut?] at ih ⊢
      split
      · rfl
      · rwa [Option.isSome_map]

theorem holds_cons_eq_false {c : Char} {t mark : Text} (h : holds (c :: t) mark = false) :
    after? (c :: t) mark = none ∧ holds t mark = false := by
  simp only [holds, cut?] at h ⊢
  cases hafter : after? (c :: t) mark with
  | some rest => simp [hafter] at h
  | none => simpa [hafter] using h

/-- What stands in front of the first mark does not hold the mark. -/
theorem holds_of_cut? {t mark front back : Text} (h : t.cut? mark = some (front, back)) :
    front.holds mark = false := by
  induction t generalizing front with
  | nil => simp [cut?] at h
  | cons c t ih =>
    rw [cut?] at h
    split at h
    · cases h
      rfl
    · next hnone =>
      obtain ⟨⟨before, after⟩, hcut, he⟩ := Option.map_eq_some_iff.1 h
      cases he
      have hbefore : after? (c :: before) mark = none := by
        rw [Option.eq_none_iff_forall_ne_some]
        intro rest hrest
        have hmore := after?_append_eq_some hrest (mark ++ back)
        rw [List.cons_append, ← cut?_eq_some hcut, hnone] at hmore
        cases hmore
      have hrest := ih hcut
      simp only [holds, Option.isSome_eq_false_iff, Option.isNone_iff_eq_none] at hrest ⊢
      rw [cut?, hbefore, hrest]
      rfl

theorem after?_code_eq_none {c : Char} {t : Text} :
    after? (c :: t) ['<', '%'] = none ↔ ¬(c = '<' ∧ t.head? = some '%') := by
  cases t with
  | nil => by_cases hc : c = '<' <;> simp [after?, hc]
  | cons d t => by_cases hc : c = '<' <;> by_cases hd : d = '%' <;> simp [after?, hc, hd]

/-- More text after `t` adds only rests that lie in what is added. -/
theorem restsAfter_append (t more : Text) {mark : Text} (hmark : mark ≠ []) :
    ∃ later, (t ++ more).restsAfter mark = (t.restsAfter mark).map (· ++ more) ++ later ∧
      ∀ rest ∈ later, rest.length < more.length := by
  induction t with
  | nil => exact ⟨more.restsAfter mark, rfl, fun _ h => length_lt_of_mem_restsAfter hmark h⟩
  | cons c t ih =>
    obtain ⟨later, hlater, hlength⟩ := ih
    cases hafter : after? (c :: t) mark with
    | some rest =>
      have hwhole := after?_append_eq_some hafter more
      refine ⟨later, ?_, hlength⟩
      simp only [List.cons_append] at hwhole ⊢
      rw [restsAfter, hwhole, restsAfter, hafter]
      simp [hlater]
    | none =>
      cases hwhole : after? (c :: t ++ more) mark with
      | none =>
        refine ⟨later, ?_, hlength⟩
        simp only [List.cons_append] at hwhole ⊢
        rw [restsAfter, hwhole, restsAfter, hafter]
        exact hlater
      | some rest =>
        -- the mark begins in `t` and ends in `more`, so no other fits into the rest of `t`
        have hshort : (c :: t).length < mark.length := by
          refine Nat.lt_of_not_le fun hle => ?_
          rw [after?_append_eq_none hafter hle] at hwhole
          cases hwhole
        have hlen := length_after? hwhole
        simp only [List.length_append, List.length_cons] at hlen hshort
        have hnil : restsAfter t mark = [] := restsAfter_eq_nil (by omega)
        refine ⟨rest :: later, ?_, ?_⟩
        · simp only [List.cons_append] at hwhole ⊢
          rw [restsAfter, hwhole, restsAfter, hafter]
          simp [hlater, hnil]
        · intro r hr
          rcases List.mem_cons.1 hr with rfl | hr
          · omega
          · exact hlength r hr

theorem dropWhile_of_append {p : Char → Bool} {t more rest : Text}
    (h : (t ++ more).dropWhile p = rest ++ more) : t.dropWhile p = rest := by
  rw [List.dropWhile_append] at h
  split at h
  · next hnil =>
    have hle := (List.dropWhile_suffix (l := more) p).length_le
    rw [h, List.length_append] at hle
    have : rest = [] := List.eq_nil_of_length_eq_zero (by omega)
    simpa [this] using hnil
  · exact List.append_cancel_right h

/-- What follows each mark is what follows it in the text. -/
theorem eq_of_mem_restsAfter {t mark rest : Text} (h : rest ∈ t.restsAfter mark) :
    ∃ front, t = front ++ (mark ++ rest) := by
  induction t with
  | nil => simp [restsAfter] at h
  | cons c t ih =>
    simp only [restsAfter] at h
    split at h
    · next after hafter =>
      rcases List.mem_cons.1 h with hrest | h
      · exact ⟨[], by rw [hrest, List.nil_append]; exact after?_eq_some hafter⟩
      · obtain ⟨front, rfl⟩ := ih h
        exact ⟨c :: front, rfl⟩
    · obtain ⟨front, rfl⟩ := ih h
      exact ⟨c :: front, rfl⟩

section

variable {p : Char → Bool} {body rest : Text}

theorem head?_dropWhile (p : Char → Bool) (t : Text) :
    ∀ c ∈ (t.dropWhile p).head?, p c = false := by
  intro c hc
  have h := List.head?_dropWhile_not p t
  rw [Option.mem_def.1 hc] at h
  exact h

theorem boundary_of_append {front : Text} (more : Text) (h : ∀ c ∈ (front ++ more).head?, p c = false) :
    ∀ c ∈ front.head?, p c = false := by
  cases front with
  | nil => simp
  | cons c front => simpa using h

theorem dropWhile_exact (inside : body.all p = true) (boundary : ∀ c ∈ rest.head?, p c = false) :
    (body ++ rest).dropWhile p = rest := by
  rw [List.dropWhile_append_of_pos (List.all_eq_true.1 inside)]
  cases rest with
  | nil => rfl
  | cons c rest => simp [boundary c rfl]

theorem takeWhile_exact (inside : body.all p = true) (boundary : ∀ c ∈ rest.head?, p c = false) :
    (body ++ rest).takeWhile p = body := by
  rw [List.takeWhile_append_of_pos (List.all_eq_true.1 inside)]
  cases rest with
  | nil => simp
  | cons c rest => simp [boundary c rfl]

theorem ne_of_class {c d : Char} (hc : p c = true) (hd : p d = false) : c ≠ d := by
  rintro rfl
  simp [hc] at hd

theorem exists_blank (t : Text) : ∃ blank rest, t = blank ++ rest ∧ blank.all isSpace = true ∧
    ∀ c ∈ rest.head?, isSpace c = false :=
  ⟨t.takeWhile isSpace, t.trimStart, t.takeWhile_append_trimStart.symm, List.all_takeWhile,
    head?_dropWhile _ _⟩

theorem dropBytes?_eq_some {t rest : Text} {n : Nat} (h : t.dropBytes? n = some rest) :
    ∃ front, t = front ++ rest ∧ n = front.byteLength := by
  induction t generalizing n with
  | nil =>
    cases n with
    | zero => exact ⟨[], by simpa [dropBytes?] using h, rfl⟩
    | succ n => simp [dropBytes?] at h
  | cons c t ih =>
    cases n with
    | zero => exact ⟨[], by simpa [dropBytes?] using h, rfl⟩
    | succ n =>
      simp only [dropBytes?] at h
      split at h
      · next hle =>
        obtain ⟨front, rfl, hn⟩ := ih h
        exact ⟨c :: front, rfl, by simp only [byteLength_cons]; omega⟩
      · simp at h

end

theorem before?_eq_some_iff {t stop front : Text} : t.before? stop = some front ↔ t = front ++ stop := by
  rw [before?, Option.map_eq_some_iff]
  constructor
  · rintro ⟨back, hback, rfl⟩
    rw [after?_eq_some_iff] at hback
    simpa using congrArg List.reverse hback
  · rintro rfl
    exact ⟨front.reverse, by rw [List.reverse_append, after?_append], List.reverse_reverse _⟩

end Text

namespace AttributeValue

/-- The written value is `inner` with the same quote before and after it, or `inner` alone when no
quote stands at its ends. -/
def Encloses (raw inner : Text) : Prop :=
  (∃ c, isQuote c = true ∧ raw = c :: (inner ++ [c])) ∨
    raw = inner ∧ (∀ c ∈ inner.head?, isQuote c = false) ∧ ∀ c ∈ inner.reverse.head?, isQuote c = false

def bindingText (body : Text) : Text := bindingMark ++ (body ++ ['%', '>'])

/-- The text is a value written as a data binding, quotes included. -/
def IsBinding (raw : Text) : Prop := ∃ body, Encloses raw (bindingText body)

/-- the value of a binding by what stands between `<%#` and `%>`; a colon asks for encoded output -/
def ofBinding : Text → AttributeValue
  | ':' :: expression => .binding expression true
  | expression => .binding expression false

theorem encloses_bindingText (body : Text) : Encloses (bindingText body) (bindingText body) :=
  .inr ⟨rfl, by simp [bindingText, bindingMark, isQuote], by simp [bindingText, isQuote]⟩

section

variable {raw inner : Text}

theorem dropQuote_eq_self {t : Text} (h : ∀ c ∈ t.head?, isQuote c = false) : dropQuote t = t := by
  cases t with
  | nil => rfl
  | cons c t => simp [dropQuote, h c rfl]

theorem Encloses.unquote_eq (h : Encloses raw inner) : unquote raw = inner := by
  rcases h with ⟨c, hc, rfl⟩ | ⟨rfl, hfirst, -⟩
  · simp [unquote, Text.before?, Text.after?, hc]
  · cases raw with
    | nil => rfl
    | cons c t =>
      have hc := hfirst c rfl
      simp only [unquote, hc]
      split <;> simp

/-- A value is a binding where that is all it is. -/
theorem Encloses.bindingBody?_eq_some_iff (h : Encloses raw inner) {body : Text} :
    bindingBody? raw = some body ↔ inner = bindingText body := by
  simp only [bindingBody?, Option.bind_eq_bind, Option.bind_eq_some_iff, Text.after?_eq_some_iff,
    Text.before?_eq_some_iff]
  rcases h with ⟨c, hc, rfl⟩ | ⟨rfl, hfirst, hlast⟩
  · have hdrop : dropQuote (c :: (inner ++ [c])) = inner ++ [c] := by simp [dropQuote, hc]
    rw [hdrop]
    constructor
    · rintro ⟨u, hu, hbody⟩
      -- the mark ends in no quote, so the last quote stands behind it
      rcases List.eq_nil_or_concat u with rfl | ⟨u, d, rfl⟩
      · have hlast := congrArg List.getLast? hu
        simp [bindingMark] at hlast
        subst hlast
        cases hc
      · rw [List.concat_eq_append, ← List.append_assoc] at hu
        obtain ⟨rfl, hd⟩ := List.append_inj' hu rfl
        cases hd
        rw [bindingText, ← hbody]
        simp [dropQuote, hc]
    · rintro rfl
      exact ⟨body ++ ['%', '>'] ++ [c], by simp [bindingText], by simp [dropQuote, hc]⟩
  · rw [dropQuote_eq_self hfirst]
    constructor
    · rintro ⟨u, rfl, hbody⟩
      rw [List.reverse_append] at hlast
      rw [dropQuote_eq_self (Text.boundary_of_append _ hlast), List.reverse_reverse] at hbody
      rw [bindingText, hbody]
    · rintro rfl
      refine ⟨body ++ ['%', '>'], rfl, ?_⟩
      simp [dropQuote, isQuote]

theorem Encloses.ofRaw_eq (h : Encloses raw inner) :
    (∃ body, inner = bindingText body ∧ ofRaw raw = ofBinding body) ∨
      (∀ body, inner ≠ bindingText body) ∧ ofRaw raw = .text inner := by
  unfold ofRaw
  cases hbody : bindingBody? raw with
  | some body =>
    refine .inl ⟨body, h.bindingBody?_eq_some_iff.1 hbody, ?_⟩
    unfold ofBinding
    split <;> simp_all
  | none =>
    refine .inr ⟨fun body heq => ?_, by rw [h.unquote_eq]⟩
    rw [h.bindingBody?_eq_some_iff.2 heq] at hbody
    cases hbody

theorem IsBinding.ofRaw (h : IsBinding raw) :
    ∃ expression encode, ofRaw raw = .binding expression encode := by
  obtain ⟨body, h⟩ := h
  rcases h.ofRaw_eq with ⟨body', -, heq⟩ | ⟨hnone, -⟩
  · rw [heq]
    unfold ofBinding
    split
    · exact ⟨_, true, rfl⟩
    · exact ⟨_, false, rfl⟩
  · exact absurd rfl (hnone body)

end

theorem eq_of_mem_bindingRests {quote t rest : Text} (h : rest ∈ bindingRests quote t) :
    ∃ body, t = bindingText body ++ (quote ++ rest) := by
  unfold bindingRests at h
  split at h
  · next after hafter =>
    obtain ⟨body, rfl⟩ := Text.eq_of_mem_restsAfter h
    exact ⟨body, by rw [Text.after?_eq_some hafter]; simp [bindingText]⟩
  · simp at h

/-- More text after `t` adds only ends of a binding that lie in what is added. -/
theorem bindingRests_append (quote t more : Text) :
    ∃ later, bindingRests quote (t ++ more) = (bindingRests quote t).map (· ++ more) ++ later ∧
      ∀ rest ∈ later, rest.length < more.length := by
  unfold bindingRests
  cases hafter : t.after? bindingMark with
  | some body =>
    rw [Text.after?_append_eq_some hafter]
    exact Text.restsAfter_append body more (by simp)
  | none =>
    cases hwhole : (t ++ more).after? bindingMark with
    | none => exact ⟨[], rfl, by simp⟩
    | some body =>
      -- the mark ends in `more`, so the body lies in it
      refine ⟨_, rfl, fun rest hrest => ?_⟩
      have hbody := Text.length_lt_of_mem_restsAfter (by simp) hrest
      have hlen := Text.length_after? hwhole
      have hshort : t.length < bindingMark.length := by
        refine Nat.lt_of_not_le fun hle => ?_
        rw [Text.after?_append_eq_none hafter hle] at hwhole
        cases hwhole
      simp only [List.length_append] at hlen
      omega

theorem quotedRests_of_append {quote : Char} {t rest more : Text}
    (h : rest ++ more ∈ quotedRests quote (t ++ more)) : quotedRests quote t = [rest] := by
  unfold quotedRests at h ⊢
  cases hd : (t ++ more).dropWhile (· != quote) with
  | nil => simp [hd] at h
  | cons c u =>
    have hu : rest ++ more = u := by simpa [hd] using h
    have hwhole : (t ++ more).dropWhile (· != quote) = (c :: rest) ++ more := by
      rw [hd, ← hu, List.cons_append]
    have hdrop := Text.dropWhile_of_append hwhole
    simp [hdrop]

theorem eq_of_mem_quotedRests {quote : Char} {t rest : Text} (h : rest ∈ quotedRests quote t) :
    ∃ inner, quote ∉ inner ∧ t = inner ++ quote :: rest := by
  have hsplit := List.takeWhile_append_dropWhile (p := (· != quote)) (l := t)
  unfold quotedRests at h
  cases hd : t.dropWhile (· != quote) with
  | nil => simp [hd] at h
  | cons d u =>
    have hquote : d = quote := by simpa using Text.head?_dropWhile (· != quote) t d (by simp [hd])
    simp only [hd, List.tail?_cons, Option.toList_some, List.mem_singleton] at h
    rw [hd, hquote, ← h] at hsplit
    refine ⟨t.takeWhile (· != quote), fun hmem => ?_, hsplit.symm⟩
    simpa using List.all_eq_true.1 List.all_takeWhile _ hmem

/-- A value that starts a text is written with its quotes, if it has any. -/
theorem exists_encloses {t rest : Text} (h : rest ∈ rests t) :
    ∃ raw inner, t = raw ++ rest ∧ Encloses raw inner := by
  cases t with
  | nil => simp [rests] at h
  | cons c t =>
    simp only [rests] at h
    split at h
    · next hquote =>
      rcases List.mem_append.1 h with h | h
      · obtain ⟨body, rfl⟩ := eq_of_mem_bindingRests h
        exact ⟨c :: (bindingText body ++ [c]), bindingText body, by simp, .inl ⟨c, hquote, rfl⟩⟩
      · obtain ⟨inner, -, rfl⟩ := eq_of_mem_quotedRests h
        exact ⟨c :: (inner ++ [c]), inner, by simp, .inl ⟨c, hquote, rfl⟩⟩
    · split at h
      · next hbare =>
        have hraw : ∀ d ∈ c :: t.takeWhile isBare, isQuote d = false := by
          intro d hd
          have hd : isBare d = true := by
            rcases List.mem_cons.1 hd with rfl | hd
            · exact hbare
            · exact List.all_eq_true.1 List.all_takeWhile d hd
          simp only [isBare, Bool.and_eq_true, Bool.not_eq_true'] at hd
          exact hd.1.2
        refine ⟨c :: t.takeWhile isBare, _, ?_, .inr ⟨rfl, fun d hd => hraw d (List.mem_of_head? hd),
          fun d hd => hraw d (List.mem_reverse.1 (List.mem_of_head? hd))⟩⟩
        rw [List.mem_singleton.1 h, List.cons_append, List.takeWhile_append_dropWhile]
      · obtain ⟨body, hbody⟩ := eq_of_mem_bindingRests h
        exact ⟨_, _, hbody, encloses_bindingText body⟩

theorem exists_of_mem_rests {t rest : Text} (h : rest ∈ rests t) : ∃ raw, t = raw ++ rest := by
  obtain ⟨raw, -, h, -⟩ := exists_encloses h
  exact ⟨raw, h⟩

/-- A value that may end in front of `more` in a text that goes on with it. The first end that the
text alone gives either is that one, or is the first in the longer text as well and ends a binding. -/
theorem head?_rests_append {t more rest : Text} (h : rest ++ more ∈ rests (t ++ more)) :
    ∃ first, (rests t).head? = some first ∧
      (first = rest ∨ (rests (t ++ more)).head? = some (first ++ more) ∧
        ∃ raw, t = raw ++ first ∧ IsBinding raw) := by
  cases t with
  | nil =>
    have := length_lt_of_mem_rests h
    simp only [List.nil_append, List.length_append] at this
    omega
  | cons c t =>
    simp only [List.cons_append, rests] at h ⊢
    split at h
    · next hquote =>
      rw [if_pos hquote, if_pos hquote]
      obtain ⟨later, heq, hlater⟩ := bindingRests_append [c] t more
      cases hb : bindingRests [c] t with
      | cons first ends =>
        obtain ⟨body, hbody⟩ := eq_of_mem_bindingRests (show first ∈ bindingRests [c] t by simp [hb])
        exact ⟨first, rfl, .inr ⟨by rw [heq, hb]; rfl, c :: (bindingText body ++ [c]), by simp [hbody],
          body, .inl ⟨c, hquote, rfl⟩⟩⟩
      | nil =>
        rw [heq, hb] at h
        rcases List.mem_append.1 h with h | h
        · have := hlater _ (by simpa using h)
          simp only [List.length_append] at this
          omega
        · rw [quotedRests_of_append h]
          exact ⟨rest, rfl, .inl rfl⟩
    · next hquote =>
      rw [if_neg hquote, if_neg hquote]
      split at h
      · next hbare =>
        rw [if_pos hbare]
        exact ⟨rest, by rw [Text.dropWhile_of_append (List.mem_singleton.1 h).symm]; rfl, .inl rfl⟩
      · next hbare =>
        rw [if_neg hbare, if_neg hbare]
        obtain ⟨later, heq, hlater⟩ := bindingRests_append [] (c :: t) more
        rw [List.cons_append] at heq
        cases hb : bindingRests [] (c :: t) with
        | cons first ends =>
          obtain ⟨body, hbody⟩ := eq_of_mem_bindingRests
            (show first ∈ bindingRests [] (c :: t) by simp [hb])
          exact ⟨first, rfl, .inr ⟨by rw [heq, hb]; rfl, _, hbody, body, encloses_bindingText body⟩⟩
        | nil =>
          rw [heq, hb] at h
          have := hlater _ (by simpa using h)
          simp only [List.length_append] at this
          omega

end AttributeValue

end ServerPages
