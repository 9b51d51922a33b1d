import ServerPages.Proofs.Lowered
import ServerPages.Proofs.OpenTag

/-! Tags written out. An attribute is printed as its name and its value in double quotes, a tag with a
space before each attribute. Whatever text follows, what is printed is read back as one opening tag, and
its attributes as those that were printed, each where it was printed. -/

namespace ServerPages

namespace Text

theorem head?_restsAfter {front : Text} (h : front.holds ['%', '>'] = false) (quote rest : Text) :
    ((front ++ (['%', '>'] ++ quote ++ rest)).restsAfter (['%', '>'] ++ quote)).head? = some rest := by
  induction front with
  | nil =>
    have hafter := after?_append (['%', '>'] ++ quote) rest
    simp only [List.cons_append, List.nil_append] at hafter ⊢
    rw [restsAfter, hafter]
    rfl
  | cons c front ih =>
    obtain ⟨hnone, hfront⟩ := holds_cons_eq_false h
    have hlater : after? (c :: front ++ (['%', '>'] ++ quote ++ rest)) (['%', '>'] ++ quote) = none := by
      refine after?_eq_none fun u hu => ?_
      cases front with
      | nil => simp at hu
      | cons d front =>
        simp only [List.cons_append, List.nil_append, List.cons.injEq] at hu
        obtain ⟨rfl, rfl, -⟩ := hu
        simp [after?] at hnone
    rw [List.cons_append] at hlater ⊢
    rw [restsAfter, hlater]
    exact ih hfront

end Text

namespace AttributeValue

def inside? : AttributeValue → Option Text
  | .absent => none
  | .text value => some value
  | .binding expression encode => some (bindingText (if encode then ':' :: expression else expression))

theorem eq_absent_of_inside? {value : AttributeValue} (h : value.inside? = none) : value = .absent := by
  cases value with
  | absent => rfl
  | text | binding => cases h

/-- whether the value can be told from any other when it stands in double quotes -/
def isPrintable : AttributeValue → Bool
  | .absent => true
  | .text value => !value.contains '\x22' && (value.after? bindingMark).isNone
  | .binding expression encode =>
    !expression.holds ['%', '>'] && (encode || expression.head? != some ':')

def quoted (inside : Text) : Text := '\x22' :: (inside ++ ['\x22'])

theorem encloses_quoted (inside : Text) : Encloses (quoted inside) inside :=
  .inl ⟨'\x22', rfl, rfl⟩

theorem isQuote_bindingMark : ∀ c ∈ bindingMark, isQuote c = false := by
  simp [bindingMark, isQuote]

/-- Text that is no binding has one end, at the next quote. -/
theorem rests_text {quote : Char} (hquote : isQuote quote = true) {value : Text}
    (hvalue : quote ∉ value) (hmark : value.after? bindingMark = none) (rest : Text) :
    rests (quote :: (value ++ quote :: rest)) = [rest] := by
  have hnone : (value ++ quote :: rest).after? bindingMark = none := by
    refine Text.after?_eq_none fun u hu => ?_
    rcases List.append_eq_append_iff.1 hu with ⟨more, hbinding, hmore⟩ | ⟨more, hvalue, -⟩
    · cases more with
      | nil =>
        rw [List.append_nil] at hbinding
        rw [← hbinding] at hmark
        cases hmark
      | cons c more =>
        -- the mark of a binding holds no quote, so it does not reach over one
        have hmem : quote ∈ bindingMark := by
          rw [hbinding, (List.cons.inj hmore).1]
          simp
        rw [isQuote_bindingMark quote hmem] at hquote
        cases hquote
    · rw [hvalue, Text.after?_append] at hmark
      cases hmark
  have hdrop : (value ++ quote :: rest).dropWhile (· != quote) = quote :: rest := by
    refine Text.dropWhile_exact (List.all_eq_true.2 fun c hc => ?_) (by simp)
    simp only [bne_iff_ne]
    rintro rfl
    exact hvalue hc
  rw [rests, if_pos hquote, bindingRests, hnone, quotedRests, hdrop]
  rfl

/-- A binding ends first where it was closed. -/
theorem head?_rests_binding {body : Text} (h : body.holds ['%', '>'] = false) (rest : Text) :
    (rests (quoted (bindingText body) ++ rest)).head? = some rest := by
  have hsplit : quoted (bindingText body) ++ rest =
      '\x22' :: (bindingMark ++ (body ++ (['%', '>'] ++ ['\x22'] ++ rest))) := by
    simp [quoted, bindingText]
  have hfirst := Text.head?_restsAfter h ['\x22'] rest
  rw [hsplit, rests, if_pos (by decide), bindingRests, Text.after?_append, List.head?_append, hfirst]
  rfl

variable {value : AttributeValue} {inside : Text}

theorem holds_colon {expression : Text} (h : expression.holds ['%', '>'] = false) :
    Text.holds (':' :: expression) ['%', '>'] = false := by
  simp only [Text.holds, Text.cut?, Text.after?, Option.isSome_eq_false_iff,
    Option.isNone_iff_eq_none] at h ⊢
  simp [h]

/-- A printed value ends first where its last quote stands. -/
theorem head?_rests_quoted (h : value.isPrintable = true) (hinside : value.inside? = some inside)
    (rest : Text) : (rests (quoted inside ++ rest)).head? = some rest := by
  cases value with
  | absent => cases hinside
  | text value =>
    cases hinside
    simp only [isPrintable, Bool.and_eq_true, Bool.not_eq_true', List.contains_eq_mem,
      decide_eq_false_iff_not, Option.isNone_iff_eq_none] at h
    have hsplit : quoted inside ++ rest = '\x22' :: (inside ++ '\x22' :: rest) := by simp [quoted]
    rw [hsplit, rests_text (by decide) h.1 h.2]
    rfl
  | binding expression encode =>
    cases hinside
    simp only [isPrintable, Bool.and_eq_true, Bool.not_eq_true'] at h
    refine head?_rests_binding ?_ rest
    split
    · exact holds_colon h.1
    · exact h.1

theorem bindingText_inj {a b : Text} (h : bindingText a = bindingText b) : a = b :=
  List.append_cancel_right (List.append_cancel_left h)

theorem ofRaw_quoted (h : value.isPrintable = true) (hinside : value.inside? = some inside) :
    ofRaw (quoted inside) = value := by
  have hread := (encloses_quoted inside).ofRaw_eq
  cases value with
  | absent => cases hinside
  | text value =>
    cases hinside
    simp only [isPrintable, Bool.and_eq_true, Option.isNone_iff_eq_none] at h
    rcases hread with ⟨body, rfl, -⟩ | ⟨-, hread⟩
    · rw [bindingText, Text.after?_append] at h
      cases h.2
    · exact hread
  | binding expression encode =>
    cases hinside
    simp only [isPrintable, Bool.and_eq_true, Bool.or_eq_true, bne_iff_ne] at h
    rcases hread with ⟨body, heq, hread⟩ | ⟨hnone, -⟩
    · rw [hread, ← bindingText_inj heq]
      cases encode with
      | true => rfl
      | false =>
        have hcolon : expression.head? ≠ some ':' := h.2.resolve_left Bool.false_ne_true
        unfold ofBinding
        split
        · next heq => simp [show expression = _ from heq] at hcolon
        · rfl
    · exact absurd rfl (hnone _)

end AttributeValue

namespace Attribute

/-- The attribute as it is written out: its name, and after `=` its value in double quotes. -/
def print (name : Text) (value : AttributeValue) : Text :=
  match value.inside? with
  | none => name
  | some inside => name ++ '=' :: AttributeValue.quoted inside

def isPrintable (name : Text) (value : AttributeValue) : Bool :=
  !name.isEmpty && name.all isNameChar && value.isPrintable

def printAll (attributes : List (Text × AttributeValue)) : Text :=
  attributes.flatMap fun (name, value) => ' ' :: print name value

end Attribute

namespace Tag

def endMark (selfClosing : Bool) : Text := if selfClosing then [' ', '/', '>'] else ['>']

/-- The opening tag of this name with these attributes as it is written out. -/
def print (name : Text) (attributes : List (Text × AttributeValue)) (selfClosing : Bool) : Text :=
  '<' :: (name ++ (Attribute.printAll attributes ++ endMark selfClosing))

def isPrintable (name : Text) (attributes : List (Text × AttributeValue)) : Bool :=
  !name.isEmpty && name.all isNameChar &&
    attributes.all fun (name, value) => Attribute.isPrintable name value

end Tag

namespace Attribute

variable {name : Text} {value : AttributeValue} {attributes : List (Text × AttributeValue)}

theorem isPrintable_iff : isPrintable name value = true ↔
    name ≠ [] ∧ name.all isNameChar = true ∧ value.isPrintable = true := by
  simp [isPrintable, and_assoc]

theorem print_absent : print name .absent = name := rfl

theorem print_eq {inside : Text} (h : value.inside? = some inside) :
    print name value = name ++ '=' :: AttributeValue.quoted inside := by
  rw [print, h]

@[simp] theorem printAll_cons : printAll ((name, value) :: attributes) =
    [' '] ++ (print name value ++ printAll attributes) := by
  simp [printAll]

theorem head?_printAll (attributes : List (Text × AttributeValue)) (selfClosing : Bool) (more : Text) :
    ∀ c ∈ (printAll attributes ++ (Tag.endMark selfClosing ++ more)).head?, c = ' ' ∨ c = '>' := by
  cases attributes with
  | nil => cases selfClosing <;> simp [printAll, Tag.endMark]
  | cons a attributes =>
    obtain ⟨name, value⟩ := a
    simp

/-- No equals sign comes next behind an attribute, so a name alone has no value. -/
theorem valueStart?_printAll (selfClosing : Bool) (more : Text)
    (h : ∀ a ∈ attributes, isPrintable a.1 a.2 = true) :
    valueStart? (printAll attributes ++ (Tag.endMark selfClosing ++ more)) = none := by
  cases attributes with
  | nil => cases selfClosing <;> simp [valueStart?, Text.trimStart, printAll, Tag.endMark, Text.isSpace]
  | cons a attributes =>
    obtain ⟨name, value⟩ := a
    obtain ⟨hname, hchars, -⟩ := isPrintable_iff.1 (h _ (List.mem_cons_self ..))
    obtain ⟨c, name, rfl⟩ := List.exists_cons_of_ne_nil hname
    have hc : isNameChar c = true := List.all_eq_true.1 hchars c (List.mem_cons_self ..)
    have hequals : c ≠ '=' := Text.ne_of_class hc (by decide)
    obtain ⟨rest, hrest⟩ : ∃ rest, print (c :: name) value = c :: rest := by
      unfold print
      split
      · exact ⟨_, rfl⟩
      · exact ⟨_, rfl⟩
    simp [valueStart?, Text.trimStart, hrest, isSpace_of_isNameChar hc, hequals,
      show Text.isSpace ' ' = true by decide]

theorem valueStart?_quoted (inside more : Text) :
    valueStart? ('=' :: AttributeValue.quoted inside ++ more) =
      some (AttributeValue.quoted inside ++ more) := by
  simp [valueStart?, Text.trimStart, AttributeValue.quoted, Text.isSpace]

end Attribute

namespace Tag

variable {name : Text} {attributes : List (Text × AttributeValue)}

theorem ending?_endMark (selfClosing : Bool) (more : Text) :
    ending? (endMark selfClosing ++ more) = some ⟨endMark selfClosing ++ more, selfClosing, more⟩ := by
  rw [ending?_eq]
  cases selfClosing with
  | false => simp [endMark, Text.trimStart, Text.isSpace, mark?_open]
  | true => simp [endMark, Text.trimStart, Text.isSpace, mark?_close]

/-- Behind white space and a name, a tag ends as it does behind the name, or behind its value. -/
theorem ending?_name {blank name r : Text} (hne : blank ≠ []) (hblank : blank.all Text.isSpace = true)
    (hname : name ≠ []) (hchars : name.all Attribute.isNameChar = true)
    (hr : ∀ c ∈ r.head?, Attribute.isNameChar c = false) :
    ending? (blank ++ (name ++ r)) =
      match Attribute.valueStart? r with
      | none => ending? r
      | some start => (AttributeValue.rests start).findSome? ending? := by
  obtain ⟨c, name, rfl⟩ := List.exists_cons_of_ne_nil hname
  have hc : Attribute.isNameChar c = true := List.all_eq_true.1 hchars c (List.mem_cons_self ..)
  have hspace := Attribute.isSpace_of_isNameChar hc
  have htrim : (blank ++ (c :: name ++ r)).trimStart = c :: (name ++ r) :=
    Text.dropWhile_exact hblank (by simpa using hspace)
  have hmark : mark? (c :: (name ++ r)) = none := by
    have hopen : c ≠ '>' := Text.ne_of_class hc (by decide)
    have hclose : c ≠ '/' := Text.ne_of_class hc (by decide)
    simp [mark?, Text.after?, hopen, hclose]
  have hdrop : (name ++ r).dropWhile Attribute.isNameChar = r :=
    Text.dropWhile_exact (by simpa [hc] using hchars) hr
  have hlength : (c :: (name ++ r)).length < (blank ++ (c :: name ++ r)).length := by
    have := List.length_pos_iff.2 hne
    simp only [List.length_append, List.length_cons]
    omega
  have hstep := ending?_eq (blank ++ (c :: name ++ r))
  rw [htrim, hmark] at hstep
  dsimp only at hstep
  rw [if_pos ⟨hlength, hc⟩, hdrop] at hstep
  refine hstep.trans ?_
  cases Attribute.valueStart? r <;> rfl

/-- A printed tag ends where it was ended. -/
theorem ending?_printAll (selfClosing : Bool) (more : Text)
    (h : ∀ a ∈ attributes, Attribute.isPrintable a.1 a.2 = true) :
    ending? (Attribute.printAll attributes ++ (endMark selfClosing ++ more)) =
      some ⟨endMark selfClosing ++ more, selfClosing, more⟩ := by
  induction attributes with
  | nil => exact ending?_endMark selfClosing more
  | cons a attributes ih =>
    obtain ⟨name, value⟩ := a
    obtain ⟨hname, hchars, hvalue⟩ := Attribute.isPrintable_iff.1 (h _ (List.mem_cons_self ..))
    have hrest : ∀ a ∈ attributes, Attribute.isPrintable a.1 a.2 = true :=
      fun a ha => h a (List.mem_cons_of_mem _ ha)
    have hend := ih hrest
    rw [Attribute.printAll_cons, List.append_assoc, List.append_assoc]
    generalize hnext : Attribute.printAll attributes ++ (endMark selfClosing ++ more) = next at hend ⊢
    cases hinside : value.inside? with
    | none =>
      have hboundary : ∀ c ∈ next.head?, Attribute.isNameChar c = false := by
        intro c hc
        rcases Attribute.head?_printAll attributes selfClosing more c (hnext ▸ hc) with rfl | rfl <;>
          decide
      obtain rfl := AttributeValue.eq_absent_of_inside? hinside
      rw [Attribute.print_absent,
        ending?_name (List.cons_ne_nil _ _) (by decide) hname hchars hboundary, ← hnext,
        Attribute.valueStart?_printAll selfClosing more hrest, hnext]
      exact hend
    | some inside =>
      have hfirst := AttributeValue.head?_rests_quoted hvalue hinside next
      obtain ⟨later, hlater⟩ := List.head?_eq_some_iff.1 hfirst
      rw [Attribute.print_eq hinside, List.append_assoc,
        ending?_name (List.cons_ne_nil _ _) (by decide) hname hchars
        (by simp [Attribute.isNameChar]), Attribute.valueStart?_quoted]
      dsimp only
      rw [hlater, List.findSome?_cons, hend]

end Tag

namespace Attribute

variable {attributes : List (Text × AttributeValue)}

/-- The attributes of a printed tag are read as they were printed. -/
theorem ofTag_printAll (offset : Nat) (h : ∀ a ∈ attributes, isPrintable a.1 a.2 = true) :
    (ofTag ⟨offset, printAll attributes⟩).map (fun a => ((a.name, a.value), a.place.text)) =
      attributes.map fun a => (a, print a.1 a.2) := by
  induction attributes generalizing offset with
  | nil => simp [ofTag, readAll, printAll, Text.trimStart]
  | cons a attributes ih =>
    obtain ⟨name, value⟩ := a
    obtain ⟨hname, hchars, hvalue⟩ := isPrintable_iff.1 (h _ (List.mem_cons_self ..))
    have hrest : ∀ a ∈ attributes, isPrintable a.1 a.2 = true :=
      fun a ha => h a (List.mem_cons_of_mem _ ha)
    have hnext : ∀ c ∈ (printAll attributes).head?, isNameChar c = false := by
      intro c hc
      rcases head?_printAll attributes false [] c (by simp [List.head?_append, Option.mem_def.1 hc])
        with rfl | rfl <;> decide
    have hread := fun r => readAll_name offset (List.cons_ne_nil ' ' []) (by decide) hname hchars (r := r)
    rw [printAll_cons, List.map_cons, ofTag]
    cases hinside : value.inside? with
    | none =>
      have hstart : valueStart? (printAll attributes) = none :=
        valueStart?_eq_none (valueStart?_printAll false [] hrest)
      obtain rfl := AttributeValue.eq_absent_of_inside? hinside
      rw [print_absent, hread _ hnext, value?, hstart]
      exact congrArg (List.cons _) (ih _ hrest)
    | some inside =>
      have hstart := valueStart?_quoted inside (printAll attributes)
      have hfirst := AttributeValue.head?_rests_quoted hvalue hinside (printAll attributes)
      have hraw : value? ('=' :: AttributeValue.quoted inside ++ printAll attributes) =
          some (AttributeValue.quoted inside, printAll attributes) :=
        value?_eq_some_iff.2 ⟨_, hstart, hfirst, rfl⟩
      have hplace : Text.upTo (name ++ ('=' :: AttributeValue.quoted inside ++ printAll attributes))
          (printAll attributes) = name ++ '=' :: AttributeValue.quoted inside := by
        rw [← List.append_assoc, Text.upTo_append]
      rw [print_eq hinside, List.append_assoc, hread _ (by simp [isNameChar]), hraw]
      simp only [List.map_cons, hplace, AttributeValue.ofRaw_quoted hvalue hinside]
      exact congrArg (List.cons _) (ih _ hrest)

end Attribute

namespace Lexeme

/-- Behind `<` a name starts an opening tag. -/
theorem scan_name {name : Text} (hname : name ≠ []) (hchars : name.all Tag.isNameChar = true)
    (r : Text) : scan ('<' :: (name ++ r)) = scanOpening (name ++ r) := by
  obtain ⟨c, name, rfl⟩ := List.exists_cons_of_ne_nil hname
  have hc : Tag.isNameChar c = true := List.all_eq_true.1 hchars c (List.mem_cons_self ..)
  have hblock : c ≠ '%' := Text.ne_of_class hc (by decide)
  have hclosing : c ≠ '/' := Text.ne_of_class hc (by decide)
  simp [scan, hblock, hclosing]

variable {name : Text} {attributes : List (Text × AttributeValue)}

theorem scan_print (h : Tag.isPrintable name attributes = true) (selfClosing : Bool) (more : Text) :
    scan (Tag.print name attributes selfClosing ++ more) =
      ⟨.openTag name (Attribute.printAll attributes) selfClosing,
        Tag.print name attributes selfClosing⟩ := by
  simp only [Tag.isPrintable, Bool.and_eq_true, Bool.not_eq_true', List.isEmpty_eq_false_iff,
    List.all_eq_true (p := fun (a : Text × AttributeValue) => Attribute.isPrintable a.1 a.2)] at h
  obtain ⟨⟨hname, hchars⟩, hattributes⟩ := h
  have hsplit : Tag.print name attributes selfClosing ++ more =
      '<' :: (name ++ (Attribute.printAll attributes ++ (Tag.endMark selfClosing ++ more))) := by
    simp [Tag.print]
  have hboundary : ∀ c ∈ (Attribute.printAll attributes ++
      (Tag.endMark selfClosing ++ more)).head?, Tag.isNameChar c = false := by
    intro c hc
    rcases Attribute.head?_printAll attributes selfClosing more c hc with rfl | rfl <;> decide
  have hread : Text.upTo (name ++ (Attribute.printAll attributes ++ (Tag.endMark selfClosing ++ more)))
      more = name ++ (Attribute.printAll attributes ++ Tag.endMark selfClosing) := by
    have := Text.upTo_append (name ++ (Attribute.printAll attributes ++ Tag.endMark selfClosing)) more
    simpa using this
  rw [hsplit, scan_name hname hchars, scanOpening, Text.takeWhile_exact hchars hboundary,
    Text.dropWhile_exact hchars hboundary, Tag.ending?_printAll selfClosing more hattributes]
  obtain ⟨c, name, rfl⟩ := List.exists_cons_of_ne_nil hname
  dsimp only
  rw [hread, Text.upTo_append, Tag.print]

end Lexeme

/-- A printed tag is read back, wherever it stands and whatever follows it: as one opening tag of its
name that takes up all that was printed, with its attributes in order, each of them at the text that
was printed for it. -/
theorem at?_print {name : Text} {attributes : List (Text × AttributeValue)}
    (h : Tag.isPrintable name attributes = true) (selfClosing : Bool) (front more : Text) :
    let printed := Tag.print name attributes selfClosing
    let source := front ++ (printed ++ more)
    let token := Token.openTag name (Attribute.printAll attributes) selfClosing
    let read := Attribute.ofTag ⟨token.innerOffset front.byteLength, Attribute.printAll attributes⟩
    Lexeme.at? source front.byteLength = some ⟨token, printed⟩ ∧
      read.map (fun a => (a.name, a.value)) = attributes ∧
      read.map (fun a => a.place.span.text source) = attributes.map fun a => Attribute.print a.1 a.2 := by
  intro printed source token read
  have hat : Lexeme.at? source front.byteLength = some ⟨token, printed⟩ := by
    rw [Lexeme.at?, Text.dropBytes?_append, Option.map_some, Lexeme.scan_print h]
  have hattributes : ∀ a ∈ attributes, Attribute.isPrintable a.1 a.2 = true := by
    simp only [Tag.isPrintable, Bool.and_eq_true] at h
    exact List.all_eq_true.1 h.2
  have hread := Attribute.ofTag_printAll (token.innerOffset front.byteLength) hattributes
  have hstart : Fragment.StandsIn ⟨token.innerOffset front.byteLength, Attribute.printAll attributes⟩
      source := by
    have hmark : ('<' : Char).utf8Size = 1 := by decide
    refine ⟨front ++ '<' :: name, Tag.endMark selfClosing ++ more, ?_, ?_⟩
    · simp [source, printed, Tag.print]
    · simp [token, Token.innerOffset, hmark, Nat.add_assoc]
  refine ⟨hat, ?_, ?_⟩
  · have := congrArg (List.map Prod.fst) hread
    simpa [read, Function.comp_def] using this
  · have hstands := ((Attribute.spaced_readAll true _).standsIn hstart).1
    have htexts : read.map (fun a => a.place.span.text source) = read.map fun a => a.place.text :=
      List.map_congr_left fun a ha => (hstands _ (List.mem_map_of_mem ha)).text_span
    have := congrArg (List.map Prod.snd) hread
    rw [htexts]
    simpa [read, Function.comp_def] using this

theorem at?_print_label :
    let attributes := [("ID".toList, .text "a".toList), ("Visible".toList, .absent),
      ("Text".toList, .binding " Eval(\x22Name\x22) ".toList false),
      ("Tip".toList, .binding "x".toList true)]
    let printed := Tag.print "asp:Label".toList attributes true
    let source := "x".toList ++ (printed ++ "</p>".toList)
    let token := Token.openTag "asp:Label".toList (Attribute.printAll attributes) true
    let read := Attribute.ofTag ⟨token.innerOffset 1, Attribute.printAll attributes⟩
    Tag.isPrintable "asp:Label".toList attributes = true ∧
      Lexeme.at? source 1 = some ⟨token, printed⟩ ∧
      read.map (fun a => (a.name, a.value)) = attributes ∧
      read.map (fun a => a.place.span.text source) = attributes.map fun a => Attribute.print a.1 a.2 := by
  intro attributes printed source token read
  have h : Tag.isPrintable "asp:Label".toList attributes = true := by decide +kernel
  exact ⟨h, at?_print h true "x".toList "</p>".toList⟩

end ServerPages
