import ServerPages.Markup.Tree
import ServerPages.Proofs.LetterCase

/-! What is read of a text in lower case: attributes, tags, directives and lexemes, each of them in lower
case, at the place where it is read of the text itself. -/

namespace ServerPages

open Text (Blind isMark blind_of_capitals)

def Fragment.lower (f : Fragment) : Fragment := ⟨f.offset, f.text.lower⟩

namespace AttributeValue

def lower : AttributeValue → AttributeValue
  | .absent => .absent
  | .text value => .text value.lower
  | .binding expression encode => .binding expression.lower encode

theorem blind_isQuote : Blind isQuote := blind_of_capitals (by decide)
theorem blind_isBare : Blind isBare := blind_of_capitals (by decide)

theorem isMark_of_isQuote {c : Char} (h : isQuote c = true) : isMark c = true := by
  simp only [isQuote, Bool.or_eq_true, beq_iff_eq] at h
  rcases h with rfl | rfl <;> decide

theorem bindingRests_lower {quote : Text} (hquote : quote.all isMark = true) (t : Text) :
    bindingRests quote t.lower = (bindingRests quote t).map Text.lower := by
  have hmark : (['%', '>'] ++ quote).all isMark = true := by
    rw [List.all_append, hquote]
    rfl
  rw [bindingRests, bindingRests, Text.after?_lower (by decide)]
  cases t.after? bindingMark with
  | none => rfl
  | some body => exact Text.restsAfter_lower hmark body

theorem quotedRests_lower {quote : Char} (hquote : isMark quote = true) (t : Text) :
    quotedRests quote t.lower = (quotedRests quote t).map Text.lower := by
  rw [quotedRests, quotedRests, Text.dropWhile_lower (Text.blind_ne hquote)]
  cases t.dropWhile (· != quote) <;> rfl

theorem rests_lower (t : Text) : rests t.lower = (rests t).map Text.lower := by
  cases t with
  | nil => rfl
  | cons c t =>
    rw [Text.lower_cons, rests, rests, blind_isQuote, blind_isBare]
    split
    · next hc =>
      have hmark := isMark_of_isQuote hc
      rw [Text.toLower_mark hmark, bindingRests_lower (by simpa using hmark), quotedRests_lower hmark,
        List.map_append]
    · split
      · rw [Text.dropWhile_lower blind_isBare]
        rfl
      · rw [← Text.lower_cons, bindingRests_lower rfl]

theorem dropQuote_lower (t : Text) : dropQuote t.lower = (dropQuote t).lower := by
  cases t with
  | nil => rfl
  | cons c t =>
    rw [Text.lower_cons, dropQuote, dropQuote, blind_isQuote]
    split <;> rfl

theorem bindingBody?_lower (raw : Text) :
    bindingBody? raw.lower = (bindingBody? raw).map Text.lower := by
  simp only [bindingBody?, Option.bind_eq_bind]
  rw [dropQuote_lower, Text.after?_lower (by decide)]
  cases (dropQuote raw).after? bindingMark with
  | none => rfl
  | some body =>
    simp only [Option.map_some, Option.bind_some]
    rw [← Text.lower_reverse, dropQuote_lower, ← Text.lower_reverse, Text.before?_lower (by decide)]

theorem unquote_cons (c : Char) (t : Text) :
    unquote (c :: t) = if isQuote c then (Text.before? t [c]).getD (c :: t) else c :: t := by
  rw [unquote]
  cases Text.before? t [c] with
  | none => simp
  | some inner => rfl

theorem unquote_lower (t : Text) : unquote t.lower = (unquote t).lower := by
  cases t with
  | nil => rfl
  | cons c t =>
    rw [Text.lower_cons, unquote_cons, unquote_cons, blind_isQuote]
    split
    · next hc =>
      have hmark := isMark_of_isQuote hc
      rw [Text.toLower_mark hmark, Text.before?_lower (by simpa using hmark)]
      cases Text.before? t [c] with
      | none => simp [Text.toLower_mark hmark]
      | some inner => rfl
    · rfl

theorem ofRaw_lower (raw : Text) : ofRaw raw.lower = (ofRaw raw).lower := by
  rw [ofRaw, ofRaw, bindingBody?_lower]
  cases bindingBody? raw with
  | none => simp [lower, unquote_lower]
  | some body =>
    cases body with
    | nil => rfl
    | cons c body =>
      by_cases hc : c = ':'
      · subst hc
        rfl
      · simp [lower, hc, Text.toLower_ne (m := ':') (by decide) hc]

end AttributeValue

namespace Attribute

def lower (a : Attribute) : Attribute := ⟨a.name.lower, a.value.lower, a.place.lower⟩

theorem blind_isNameChar : Blind isNameChar := blind_of_capitals (by decide)

theorem valueStart?_lower (t : Text) : valueStart? t.lower = (valueStart? t).map Text.lower := by
  simp only [valueStart?, Text.trimStart_lower]
  cases t.trimStart with
  | nil => rfl
  | cons c value =>
    by_cases hc : c = '='
    · subst hc
      exact congrArg some (Text.trimStart_lower value)
    · simp [hc, Text.toLower_ne (m := '=') (by decide) hc]

theorem value?_lower (t : Text) :
    value? t.lower = (value? t).map (Prod.map Text.lower Text.lower) := by
  simp only [value?, Option.bind_eq_bind, valueStart?_lower]
  cases valueStart? t with
  | none => rfl
  | some start =>
    simp only [Option.map_some, Option.bind_some, AttributeValue.rests_lower, List.head?_map]
    cases (AttributeValue.rests start).head? with
    | none => rfl
    | some rest => simp

theorem read?_lower (start : Fragment) :
    read? start.lower = (read? start).map (Prod.map lower Text.lower) := by
  simp only [read?, Fragment.lower, Text.takeWhile_lower blind_isNameChar,
    Text.dropWhile_lower blind_isNameChar, Text.isEmpty_lower, value?_lower]
  split
  · rfl
  · cases value? (start.text.dropWhile isNameChar) with
    | none => rfl
    | some parts => simp [lower, AttributeValue.ofRaw_lower, Fragment.lower]

theorem skipTo_lower (f : Fragment) (rest : Text) : f.lower.skipTo rest.lower = (f.skipTo rest).lower := by
  simp [Fragment.skipTo, Fragment.lower]

theorem readAll_eq (spaced : Bool) (start : Fragment) : readAll spaced start =
    if spaced && start.text.trimStart.length == start.text.length then ([], start)
    else
      match read? (start.skipTo start.text.trimStart) with
      | none => ([], start)
      | some (a, rest) =>
        (a :: (readAll spaced (start.skipTo rest)).1, (readAll spaced (start.skipTo rest)).2) := by
  rw [readAll]
  split
  · rfl
  · split
    · next hread => rw [hread]
    · next a rest hread => rw [hread]

theorem readAll_step (spaced : Bool) (start : Fragment) : readAll spaced start.lower =
    if spaced && start.text.trimStart.length == start.text.length then ([], start.lower)
    else
      match (read? (start.skipTo start.text.trimStart)).map (Prod.map lower Text.lower) with
      | none => ([], start.lower)
      | some (a, rest) => (a :: (readAll spaced (start.lower.skipTo rest)).1,
          (readAll spaced (start.lower.skipTo rest)).2) := by
  rw [readAll_eq, ← read?_lower, ← skipTo_lower]
  simp only [Fragment.lower, Text.trimStart_lower, Text.length_lower]

theorem readAll_lower (spaced : Bool) (start : Fragment) :
    readAll spaced start.lower =
      ((readAll spaced start).1.map lower, (readAll spaced start).2.lower) := by
  fun_induction readAll spaced start with
  | case1 start h =>
    rw [readAll_step, if_pos h]
    rfl
  | case2 start h hread =>
    rw [readAll_step, if_neg h, hread]
    rfl
  | case3 start h a rest hread more left hmore ih =>
    rw [readAll_step, if_neg h, hread]
    simp only [Option.map_some, Prod.map, skipTo_lower, ih, hmore, List.map_cons]

end Attribute

namespace DirectiveBody

def lower (d : DirectiveBody) : DirectiveBody :=
  ⟨d.name.map Text.lower, d.attributes.map Attribute.lower, d.leftover.map Fragment.lower⟩

theorem blind_isNameChar : Blind isNameChar := blind_of_capitals (by decide)

theorem name?_lower (body : Text) :
    name? body.lower = (name? body).map (Prod.map Text.lower Text.lower) := by
  simp only [name?, Text.trimStart_lower, Text.takeWhile_lower blind_isNameChar,
    Text.dropWhile_lower blind_isNameChar, Text.isEmpty_lower, Text.map_head?_lower Text.blind_isSpace,
    Text.head?_lower (m := '=') (by decide)]
  split <;> rfl

theorem trimmed_lower (f : Fragment) : trimmed f.lower = (trimmed f).lower := by
  simp [trimmed, Fragment.lower, Fragment.skipTo]

theorem read_lower (start : Fragment) : read start.lower = (read start).lower := by
  have hrest : ((name? start.lower.text).map Prod.snd).getD start.lower.text =
      Text.lower (((name? start.text).map Prod.snd).getD start.text) := by
    rw [Fragment.lower, name?_lower]
    cases name? start.text <;> rfl
  have hname : (name? start.lower.text).map Prod.fst =
      ((name? start.text).map Prod.fst).map Text.lower := by
    rw [Fragment.lower, name?_lower]
    cases name? start.text <;> rfl
  simp only [read, hrest, hname, Attribute.skipTo_lower, Attribute.readAll_lower, trimmed_lower]
  generalize trimmed _ = leftover
  simp only [lower, Fragment.lower, Text.isEmpty_lower]
  split <;> rfl

end DirectiveBody

namespace Tag

def Ending.lower (e : Ending) : Ending := ⟨e.attributesRest.lower, e.selfClosing, e.rest.lower⟩

/-- whether the mark at the front, which ends a tag, closes it too, and what follows -/
def mark? (t : Text) : Option (Bool × Text) :=
  ((t.after? ['>']).map (false, ·)).or ((t.after? ['/', '>']).map (true, ·))

theorem mark?_open (rest : Text) : mark? ('>' :: rest) = some (false, rest) := by
  rw [mark?, show Text.after? ('>' :: rest) ['>'] = some rest from Text.after?_append ['>'] rest]
  rfl

theorem mark?_close (rest : Text) : mark? ('/' :: '>' :: rest) = some (true, rest) := by
  rw [mark?, show Text.after? ('/' :: '>' :: rest) ['/', '>'] = some rest from
    Text.after?_append ['/', '>'] rest]
  rfl

theorem mark?_lower (t : Text) : mark? t.lower = (mark? t).map (Prod.map id Text.lower) := by
  rw [mark?, mark?, Text.after?_lower (by decide), Text.after?_lower (by decide)]
  cases t.after? ['>'] with
  | some rest => rfl
  | none => cases t.after? ['/', '>'] <;> rfl

theorem ending?_eq (t : Text) : ending? t =
    match mark? t.trimStart with
    | some (selfClosing, rest) => some ⟨t, selfClosing, rest⟩
    | none =>
      match t.trimStart with
      | [] => none
      | c :: cs =>
        if (c :: cs).length < t.length ∧ Attribute.isNameChar c = true then
          match Attribute.valueStart? (cs.dropWhile Attribute.isNameChar) with
          | none => ending? (cs.dropWhile Attribute.isNameChar)
          | some start => (AttributeValue.rests start).findSome? ending?
        else none := by
  rw [ending?]
  split
  · next rest h =>
    rw [h, mark?_open]
  · next rest h =>
    rw [h, mark?_close]
  · next c cs hmark hclosing h =>
    have hnone : mark? (c :: cs) = none := by
      have hfirst : Text.after? (c :: cs) ['>'] = none := by
        rw [Text.after?, if_neg hmark]
      have hsecond : Text.after? (c :: cs) ['/', '>'] = none := by
        refine Text.after?_eq_none fun rest hrest => ?_
        cases hrest
        exact hclosing rest rfl rfl
      rw [mark?, hfirst, hsecond]
      rfl
    rw [h, hnone]
    dsimp only
    split
    · split
      · next hv => simp [hv]
      · next hv => simp [hv]
    · rfl
  · next h =>
    rw [h]
    rfl

theorem findSome?_ending?_lower {rests : List Text}
    (h : ∀ rest ∈ rests, ending? rest.lower = (ending? rest).map Ending.lower) :
    (rests.map Text.lower).findSome? ending? = (rests.findSome? ending?).map Ending.lower := by
  induction rests with
  | nil => rfl
  | cons rest rests ih =>
    rw [List.map_cons, List.findSome?_cons, List.findSome?_cons, h rest (List.mem_cons_self ..)]
    cases ending? rest with
    | some e => rfl
    | none => exact ih fun later hlater => h later (List.mem_cons_of_mem _ hlater)

theorem ending?_lower (t : Text) : ending? t.lower = (ending? t).map Ending.lower := by
  -- on the length of the text: the rests behind a value are no direct parts of it
  induction hn : t.length using Nat.strongRecOn generalizing t with
  | ind n ih =>
    subst hn
    rw [ending?_eq, ending?_eq t, Text.trimStart_lower, mark?_lower, Text.length_lower]
    cases mark? t.trimStart with
    | some parts => rfl
    | none =>
      cases hstart : t.trimStart with
      | nil => rfl
      | cons c cs =>
        simp only [Option.map_none, Text.lower_cons, List.length_cons, Text.length_lower,
          Attribute.blind_isNameChar c, Text.dropWhile_lower Attribute.blind_isNameChar,
          Attribute.valueStart?_lower]
        split
        · next hlt =>
          have hrest := (List.dropWhile_suffix (l := cs) Attribute.isNameChar).length_le
          cases hvalue : Attribute.valueStart? (cs.dropWhile Attribute.isNameChar) with
          | none => exact ih _ (by omega) _ rfl
          | some start =>
            have hlength := Attribute.length_valueStart? hvalue
            simp only [Option.map_some, AttributeValue.rests_lower]
            refine findSome?_ending?_lower fun rest hmem => ih _ ?_ _ rfl
            have := AttributeValue.length_lt_of_mem_rests hmem
            omega
        · rfl

theorem blind_isNameChar : Blind isNameChar := blind_of_capitals (by decide)
theorem blind_isPartChar : Blind isPartChar := blind_of_capitals (by decide)

theorem closing?_eq (t : Text) : closing? t =
    if (t.takeWhile isNameChar).isEmpty then none
    else ((Text.trimStart (t.dropWhile isNameChar)).after? ['>']).map (t.takeWhile isNameChar, ·) := by
  unfold closing?
  split
  · next c name rest hname hrest => simp [hname, hrest, Text.after?]
  · next hnone =>
    cases hname : t.takeWhile isNameChar with
    | nil => rfl
    | cons c name =>
      have hafter : (Text.trimStart (t.dropWhile isNameChar)).after? ['>'] = none :=
        Text.after?_eq_none fun rest hrest => hnone c name rest hname hrest
      simp [hafter]

theorem closing?_lower (t : Text) :
    closing? t.lower = (closing? t).map (Prod.map Text.lower Text.lower) := by
  rw [closing?_eq, closing?_eq t, Text.takeWhile_lower blind_isNameChar,
    Text.dropWhile_lower blind_isNameChar, Text.isEmpty_lower, Text.trimStart_lower,
    Text.after?_lower (by decide)]
  split
  · rfl
  · rw [Option.map_map, Option.map_map]
    rfl

theorem afterWord?_lower (t word : Text) :
    afterWord? t.lower word = (afterWord? t word).map Text.lower := by
  have hsame : ∀ c w : Char, (c.toLower.toLower = w || (w = 's' && c.toLower = '\u017f')) =
      (c.toLower = w || (w = 's' && c = '\u017f')) := by
    intro c w
    simp only [Text.toLower_toLower, Text.toLower_eq_iff (m := '\u017f') (by decide)]
  induction word generalizing t with
  | nil => cases t <;> rfl
  | cons w word ih =>
    cases t with
    | nil => rfl
    | cons c t =>
      rw [Text.lower_cons, afterWord?, afterWord?, hsame]
      split
      · exact ih t
      · rfl

theorem asksForServer_eq (wholeWord : Bool) (t : Text) : asksForServer wholeWord t =
    (((afterWord? t ['r', 'u', 'n', 'a', 't']).bind fun rest => rest.trimStart.after? ['=']).bind
      fun value => afterWord? (AttributeValue.dropQuote value.trimStart)
        ['s', 'e', 'r', 'v', 'e', 'r']).any
      fun rest => !(wholeWord && (rest.head?.map Text.isWord).getD false) := by
  unfold asksForServer
  cases afterWord? t ['r', 'u', 'n', 'a', 't'] with
  | none => rfl
  | some rest =>
    simp only [Option.map_eq_map, Option.map_some, Option.bind_some]
    cases hrest : rest.trimStart with
    | nil => rfl
    | cons c value =>
      by_cases hc : c = '='
      · subst hc
        simp only [Text.after?, if_true, Option.bind_some]
        split
        · next h => simp [h]
        · next h => simp [h]
      · simp [hc, Text.after?]

theorem asksForServer_lower (wholeWord : Bool) (t : Text) :
    asksForServer wholeWord t.lower = asksForServer wholeWord t := by
  rw [asksForServer_eq, asksForServer_eq, afterWord?_lower]
  cases afterWord? t ['r', 'u', 'n', 'a', 't'] with
  | none => rfl
  | some rest =>
    simp only [Option.map_some, Option.bind_some]
    rw [Text.trimStart_lower, Text.after?_lower (by decide)]
    cases rest.trimStart.after? ['='] with
    | none => rfl
    | some value =>
      simp only [Option.map_some, Option.bind_some]
      rw [Text.trimStart_lower, AttributeValue.dropQuote_lower, afterWord?_lower, Option.any_map]
      simp only [Text.map_head?_lower Text.blind_isWord]

theorem lastRunat?_lower (wholeWord : Bool) (previous : Char) (t : Text) :
    lastRunat? wholeWord previous.toLower t.lower = lastRunat? wholeWord previous t := by
  induction t generalizing previous with
  | nil => rfl
  | cons c t ih =>
    rw [Text.lower_cons, lastRunat?, lastRunat?, ih, ← Text.lower_cons, asksForServer_lower,
      Text.blind_isWord]

theorem runatName?_eq (wholeWord : Bool) (previous : Char) (inside : Text) :
    runatName? wholeWord previous inside = (lastRunat? wholeWord previous inside).bind fun last =>
      if ((inside.takeWhile isNameChar).take last).isEmpty then none
      else some ((inside.takeWhile isNameChar).take last) := by
  unfold runatName?
  cases lastRunat? wholeWord previous inside with
  | none => rfl
  | some last =>
    dsimp only [Option.bind_some]
    split
    · next h => rw [h]; rfl
    · next h => rw [if_neg fun hempty => h (List.isEmpty_iff.1 hempty)]

theorem runatName?_lower (wholeWord : Bool) {p : Char} (hp : isMark p = true) (t : Text) :
    runatName? wholeWord p t.lower = (runatName? wholeWord p t).map Text.lower := by
  have hlast := lastRunat?_lower wholeWord p t
  rw [Text.toLower_mark hp] at hlast
  rw [runatName?_eq, runatName?_eq, hlast, Text.takeWhile_lower blind_isNameChar]
  cases lastRunat? wholeWord p t with
  | none => rfl
  | some last =>
    simp only [Option.bind_some]
    rw [Text.take_lower, Text.isEmpty_lower]
    split <;> rfl

theorem inside_lower (t : Text) : inside t.lower = (inside t).lower :=
  Text.takeWhile_lower (blind_of_capitals (by decide)) t

theorem prefixedName?_eq (t : Text) : prefixedName? t =
    if (t.takeWhile isPartChar).isEmpty then none
    else (Text.after? (t.dropWhile isPartChar) [':']).bind fun rest =>
      if (rest.takeWhile isPartChar).isEmpty then none
      else some (t.takeWhile isPartChar ++ ':' :: rest.takeWhile isPartChar) := by
  unfold prefixedName?
  split
  · next c scope rest hscope hrest =>
    simp only [hscope, hrest, Text.after?, if_true, Option.bind_some]
    split
    · next h => simp [h]
    · next h => exact (if_neg fun hempty => h (List.isEmpty_iff.1 hempty)).symm
  · next hnone =>
    cases hscope : t.takeWhile isPartChar with
    | nil => rfl
    | cons c scope =>
      rw [Text.after?_eq_none fun rest hrest => hnone c scope rest hscope hrest]
      rfl

theorem prefixedName?_lower (t : Text) :
    prefixedName? t.lower = (prefixedName? t).map Text.lower := by
  rw [prefixedName?_eq, prefixedName?_eq t, Text.takeWhile_lower blind_isPartChar,
    Text.dropWhile_lower blind_isPartChar, Text.isEmpty_lower, Text.after?_lower (by decide)]
  split
  · rfl
  · cases Text.after? (t.dropWhile isPartChar) [':'] with
    | none => rfl
    | some rest =>
      simp only [Option.map_some, Option.bind_some, Text.takeWhile_lower blind_isPartChar,
        Text.isEmpty_lower]
      split
      · rfl
      · simp [Text.lower]

end Tag

end ServerPages
