import ServerPages.Proofs.Blocks
import ServerPages.Proofs.Nesting
import ServerPages.Proofs.Shape

/-! Two runs of the builder over the same text, one of which started inside plain elements that the
other does not know of. As long as these contain what starts in them, their closing tags end them in the
one run and elements just like them around them in the other, and all else nests in both runs alike. -/

namespace ServerPages

namespace Shape

variable {σ : Shape} {t u back : Text}

/-- no raw text is read: the innermost open element is not `script` or `style` -/
def Parsing (σ : Shape) : Prop := ∀ tag ∈ σ.tags.head?, Builder.isRaw tag = false

theorem Parsing.rawRun_eq_nil (h : σ.Parsing) (t : Text) : σ.rawRun t = [] := by
  unfold rawRun
  split
  · next tag _ htags =>
    rw [h tag (by simp [htags])]
    rfl
  · rfl

theorem Parsing.run_skip (h : σ.Parsing) (offset : Nat) (ht : t ≠ [])
    (hhandle : σ.handle (Lexeme.scan t).token ⟨offset, (Lexeme.scan t).text⟩ = σ)
    (hread : (Lexeme.scan t).token.read ⟨offset, (Lexeme.scan t).text⟩ = (Lexeme.scan t).text) :
    σ.run offset t =
      σ.run (offset + (Lexeme.scan t).text.byteLength) (t.drop (Lexeme.scan t).text.length) := by
  have hstep : σ.step offset t = (σ, (Lexeme.scan t).text) := by
    unfold step
    rw [h.rawRun_eq_nil t]
    exact Prod.ext hhandle hread
  rw [run_of_ne_nil _ _ ht, hstep]

theorem Parsing.run_block (h : σ.Parsing) (offset : Nat) (hblock : Lexeme.IsBlock u) :
    σ.run offset (u ++ back) = σ.run (offset + u.byteLength) back := by
  have hscan := hblock.scan_append back
  have hne : u ++ back ≠ [] := by
    obtain ⟨body, rfl, -⟩ := hblock.eq_scanBlock
    simp
  have hskip := h.run_skip offset hne
  have htoken := hblock.1
  rw [hscan] at hskip
  have hdrop : (u ++ back).drop u.length = back := List.drop_left
  simp only [hdrop] at hskip
  revert htoken hskip
  cases (Lexeme.scan u).token with
  | comment | directive | code | binding => exact fun _ hskip => hskip rfl rfl
  | _ => exact fun hblock => nomatch hblock

theorem Parsing.run_ofText (h : σ.Parsing) (offset : Nat) {c : Char}
    (hscan : Lexeme.scan (c :: t) = Lexeme.ofText c t) :
    σ.run offset (c :: t) =
      σ.run (offset + c.utf8Size + Text.byteLength (t.takeWhile (· != '<'))) (t.dropWhile (· != '<')) := by
  have hskip := h.run_skip offset (List.cons_ne_nil c t)
  have hdrop : t.drop (t.takeWhile (· != '<')).length = t.dropWhile (· != '<') :=
    (congrArg (List.drop _) List.takeWhile_append_dropWhile.symm).trans List.drop_left
  rw [hscan] at hskip
  rw [hskip rfl rfl, Lexeme.ofText, List.length_cons, List.drop_succ_cons, hdrop, Text.byteLength_cons,
    Nat.add_assoc]

theorem Parsing.run_dropWhile (h : σ.Parsing) (offset : Nat) (t : Text) :
    σ.run offset t =
      σ.run (offset + Text.byteLength (t.takeWhile (· != '<'))) (t.dropWhile (· != '<')) := by
  cases t with
  | nil => simp
  | cons c t =>
    by_cases hc : c = '<'
    · simp [hc]
    · rw [h.run_ofText offset (Lexeme.scan_text hc t)]
      simp [hc, Nat.add_assoc]

theorem Parsing.run_text (h : σ.Parsing) (offset : Nat) {c : Char}
    (hscan : Lexeme.scan (c :: t) = Lexeme.ofText c t) :
    σ.run offset (c :: t) = σ.run (offset + c.utf8Size) t := by
  rw [h.run_ofText offset hscan, h.run_dropWhile (offset + c.utf8Size) t]

theorem Parsing.run_inert (h : σ.Parsing) (offset : Nat) (hu : Lexeme.Inert u) :
    σ.run offset (u ++ back) = σ.run (offset + u.byteLength) back := by
  induction hu generalizing offset with
  | nil => rfl
  | block hblock _ ih =>
    rw [List.append_assoc, h.run_block offset hblock, ih, Text.byteLength_append, Nat.add_assoc]
  | char hc _ ih =>
    rw [List.cons_append, h.run_text offset (Lexeme.scan_text hc _), ih, Text.byteLength_cons,
      Nat.add_assoc]
  | mark hname hblock hclosing _ ih =>
    rw [List.cons_append, List.cons_append,
      h.run_text offset (Lexeme.scan_mark hname hblock hclosing _), ← List.cons_append, ih,
      Text.byteLength_cons '<', Nat.add_assoc]

theorem parsing_of_scan {name attributes text : Text} {selfClosing : Bool}
    (hscan : Lexeme.scan t = ⟨.openTag name attributes selfClosing, text⟩)
    (hraw : σ.rawRun t = []) : σ.Parsing := by
  obtain ⟨e, ht, hne, hchars, -⟩ := Lexeme.exists_of_scan_openTag hscan
  obtain ⟨c, name, hname⟩ := List.exists_cons_of_ne_nil hne
  have hc : Tag.isNameChar c = true := List.all_eq_true.1 hchars c (by simp [hname])
  have hblock : c ≠ '%' := Text.ne_of_class hc (by decide)
  have hclosing : c ≠ '/' := Text.ne_of_class hc (by decide)
  intro top htop
  obtain ⟨outer, htags⟩ : ∃ outer, σ.tags = top :: outer := by
    cases hs : σ.tags with
    | nil => simp [hs] at htop
    | cons t outer => simp_all
  rw [ht, hname] at hraw
  simp only [rawRun, htags] at hraw
  split at hraw
  · simp [rawText, hblock, hclosing] at hraw
  · next hplain => simpa using hplain

/-- No element is open inside one with raw text. -/
def RawOnTop (σ : Shape) : Prop := ∀ tag ∈ σ.tags.tail, Builder.isRaw tag = false

theorem suffix_closed (name : Text) (place : Fragment) (tags : List Tag) :
    (closed name place tags).1 <:+ tags.tail := by
  induction tags with
  | nil => exact List.suffix_refl _
  | cons tag outer ih =>
    rw [closed]
    split
    · exact List.suffix_refl _
    · exact ih.trans (List.tail_suffix _)

theorem RawOnTop.close (h : σ.RawOnTop) (name : Text) (place : Fragment) :
    (σ.close name place).RawOnTop := by
  unfold Shape.close
  split
  · intro tag htag
    exact h tag ((suffix_closed name place σ.tags).subset (List.mem_of_mem_tail htag))
  · exact h

theorem RawOnTop.step (h : σ.RawOnTop) (offset : Nat) (t : Text) : (σ.step offset t).1.RawOnTop := by
  unfold Shape.step
  cases hraw : σ.rawRun t with
  | cons c raw => exact h
  | nil =>
    dsimp only
    cases htoken : (Lexeme.scan t).token with
    | openTag name attributes selfClosing =>
      have hparsing : σ.Parsing :=
        parsing_of_scan (congrArg (Lexeme.mk · (Lexeme.scan t).text) htoken) hraw
      simp only [handle, openTag]
      split
      · exact h
      · split
        · exact h
        · intro tag htag
          have htag : tag ∈ σ.tags := htag
          cases hs : σ.tags with
          | nil => simp [hs] at htag
          | cons top outer =>
            rw [hs] at htag
            rcases List.mem_cons.1 htag with rfl | htag
            · exact hparsing tag (by simp [hs])
            · exact h tag (by rw [hs]; exact htag)
    | closeTag name => exact h.close _ _
    | runatOnClosingTag name => exact h.close _ _
    | _ => exact h

end Shape

namespace Builder

theorem rawOnTop_of_mem_turns {b : Builder} {offset : Nat} {t : Text} {turn : Turn}
    (h : b.shape.RawOnTop) (hturn : turn ∈ b.turns offset t) : turn.builder.shape.RawOnTop := by
  fun_induction turns b offset t with
  | case1 b offset => simp at hturn
  | case2 b offset t ht next ih =>
    rcases List.mem_cons.1 hturn with rfl | hturn
    · exact h
    · refine ih ?_ hturn
      rw [(b.shape_step offset t).1]
      exact h.step offset t

theorem mem_turns_self (b : Builder) (offset : Nat) {t : Text} (h : t ≠ []) :
    ⟨b, offset, t⟩ ∈ b.turns offset t := by
  rw [turns, dif_neg h]
  exact List.mem_cons_self ..

theorem mem_turns_of_step {b : Builder} {offset : Nat} (read : Text) {t : Text} {turn : Turn}
    (hne : read ≠ []) (hread : (b.step offset (read ++ t)).2 = read)
    (hturn : turn ∈ (b.step offset (read ++ t)).1.turns (offset + read.byteLength) t) :
    turn ∈ b.turns offset (read ++ t) := by
  rw [turns, dif_neg (List.append_ne_nil_of_left_ne_nil hne t)]
  refine List.mem_cons_of_mem _ ?_
  rwa [hread, List.drop_left]

end Builder

namespace Shape

section Closed

variable {name : Text} {place : Fragment} {inner rest : List Tag}

theorem closed_append_of_any (h : inner.any (·.name.same name) = true) :
    closed name place (inner ++ rest) =
      ((closed name place inner).1 ++ rest, (closed name place inner).2) := by
  induction inner with
  | nil => simp at h
  | cons tag inner ih =>
    cases htag : tag.name.same name with
    | true => simp [closed, htag]
    | false =>
      rw [List.any_cons, htag, Bool.false_or] at h
      simp [closed, htag, ih h]

theorem closed_append_of_not_any (h : inner.any (·.name.same name) = false) :
    closed name place (inner ++ rest) =
      ((closed name place rest).1,
        inner.flatMap (·.served .unclosed) ++ (closed name place rest).2) := by
  induction inner with
  | nil => simp
  | cons tag inner ih =>
    rw [List.any_cons, Bool.or_eq_false_iff] at h
    simp [closed, h.1, ih h.2]

variable {tags : List Tag} (hplain : ∀ tag ∈ tags, tag.isServer = false)

include hplain

theorem flatMap_served_of_plain (closing : Closing) : tags.flatMap (·.served closing) = [] :=
  List.flatMap_eq_nil_iff.2 fun tag htag => Tag.served_of_plain (hplain tag htag) closing

theorem closed_of_plain (name : Text) (place : Fragment) : (closed name place tags).2 = [] := by
  induction tags with
  | nil => rfl
  | cons tag outer ih =>
    rw [closed]
    split
    · exact Tag.served_of_plain (hplain tag (List.mem_cons_self ..)) _
    · simp [Tag.served_of_plain (hplain tag (List.mem_cons_self ..)),
        ih fun t ht => hplain t (List.mem_cons_of_mem _ ht)]

theorem exists_suffix_close (place : Fragment) (served : List (Tag × Closing))
    (hrest : rest.any (·.name.same name) = false) : ∃ left, left <:+ tags ∧
      (tags.any (·.name.same name) = true → left <:+ tags.tail) ∧
      Shape.close ⟨tags ++ rest, served⟩ name place = ⟨left ++ rest, served⟩ := by
  unfold Shape.close
  simp only [List.any_append, hrest, Bool.or_false]
  cases htags : tags.any (·.name.same name) with
  | false => exact ⟨tags, List.suffix_refl _, fun h => absurd h Bool.false_ne_true, rfl⟩
  | true =>
    have hsuffix := suffix_closed name place tags
    refine ⟨(closed name place tags).1, hsuffix.trans (List.tail_suffix _), fun _ => hsuffix, ?_⟩
    rw [if_pos rfl, closed_append_of_any htags, closed_of_plain hplain, List.append_nil]

end Closed

theorem exists_first {p : Tag → Bool} {tags : List Tag} (h : tags.any p = true) :
    ∃ above tag below, tags = above ++ tag :: below ∧ (∀ t ∈ above, p t = false) ∧ p tag = true := by
  obtain ⟨tag, htag⟩ := Option.isSome_iff_exists.1 (List.find?_isSome.2 (List.any_eq_true.1 h))
  obtain ⟨hp, above, below, rfl, habove⟩ := List.find?_eq_some_iff_append.1 htag
  exact ⟨above, tag, below, rfl, by simpa using habove, hp⟩

/-- Two shapes alike but for plain elements that are open in the middle: of `around` those in the first
are at least those in the second, which never has the innermost of them. Outside of these stand elements
of `further`, inside of them any that were opened since. -/
inductive Alike (around further : List Tag) : Shape → Shape → Prop
  | mk {inner more less outer : List Tag} {served : List (Tag × Closing)} (more_around : more <:+ around)
    (less_more : less <:+ more) (less_around : less <:+ around.tail) (outer_further : outer <:+ further) :
    Alike around further ⟨inner ++ (more ++ outer), served⟩ ⟨inner ++ (less ++ outer), served⟩

/-- If a closing tag of this name ends an element of `around`, that one is the innermost open element,
and none of `further` has its name. -/
def EndsInnermost (σ : Shape) (around further : List Tag) (name : Text) : Prop :=
  ∀ above tag below, σ.tags = above ++ tag :: below → (∀ t ∈ above, t.name.same name = false) →
    tag.name.same name = true → tag ∈ around →
      above = [] ∧ ∀ outer ∈ further, tag.name.same outer.name = false

section

variable {around further : List Tag} {σ' σ : Shape}

theorem Alike.openTag (h : Alike around further σ' σ) (tag : Tag) (selfClosing : Bool) :
    Alike around further (σ'.openTag tag selfClosing) (σ.openTag tag selfClosing) := by
  obtain ⟨more_around, less_more, less_around, outer_further⟩ := h
  unfold Shape.openTag
  split
  · exact .mk more_around less_more less_around outer_further
  · split
    · exact .mk more_around less_more less_around outer_further
    · simp only [Shape.enter, ← List.cons_append]
      exact .mk more_around less_more less_around outer_further

variable (hplain : ∀ tag ∈ around, tag.isServer = false)

include hplain

theorem Alike.finish (h : Alike around further σ' σ) : σ'.finish = σ.finish := by
  obtain ⟨more_around, less_more, less_around, outer_further⟩ := h
  have hmore := flatMap_served_of_plain (fun t ht => hplain t (more_around.subset ht)) .endOfInput
  have hless := flatMap_served_of_plain
    (fun t ht => hplain t ((less_more.trans more_around).subset ht)) .endOfInput
  simp [Shape.finish, hmore, hless]

theorem Alike.close (h : Alike around further σ' σ) {name : Text} (place : Fragment)
    (hends : σ'.EndsInnermost around further name) :
    Alike around further (σ'.close name place) (σ.close name place) := by
  obtain @⟨inner, more, less, outer, served, more_around, less_more, less_around, outer_further⟩ := h
  have hmoreplain : ∀ tag ∈ more, tag.isServer = false := fun t ht => hplain t (more_around.subset ht)
  have hlessplain : ∀ tag ∈ less, tag.isServer = false := fun t ht => hmoreplain t (less_more.subset ht)
  cases hinner : inner.any (·.name.same name) with
  | true =>
    simp only [Shape.close, List.any_append, hinner, Bool.true_or, if_true, closed_append_of_any hinner]
    exact .mk more_around less_more less_around outer_further
  | false =>
  cases hmore : more.any (·.name.same name) with
  | true =>
    -- it ends one of `around`, so that one is innermost, and no element further out has its name
    obtain ⟨above, tag, below, rfl, habove, htag⟩ := exists_first hmore
    obtain ⟨hnil, hnames⟩ := hends (inner ++ above) tag (below ++ outer) (by simp)
      (by simpa [or_imp, forall_and] using ⟨by simpa using hinner, habove⟩) htag
      (more_around.subset (by simp))
    obtain ⟨rfl, rfl⟩ := List.append_eq_nil_iff.1 hnil
    have houter : outer.any (·.name.same name) = false := by
      rw [List.any_eq_false]
      intro t ht hsame
      have hdiffers := hnames t (outer_further.subset ht)
      rw [Text.same_left hsame, htag] at hdiffers
      cases hdiffers
    have hfirst : Shape.close ⟨tag :: (below ++ outer), served⟩ name place = ⟨below ++ outer, served⟩ := by
      simp [Shape.close, closed, htag, Tag.served_of_plain (hmoreplain tag (by simp))]
    obtain ⟨left, hleft, htail, hsecond⟩ := exists_suffix_close hlessplain place served houter
    have hbelow : left <:+ below := by
      rcases List.suffix_cons_iff.1 less_more with rfl | hsub
      · exact htail (by simp [htag])
      · exact hleft.trans hsub
    rw [List.nil_append, List.nil_append, List.nil_append, List.cons_append, hfirst, hsecond]
    exact @Alike.mk around further [] below left outer served
      ((List.suffix_cons tag below).trans more_around) hbelow (hleft.trans less_around) outer_further
  | false =>
    have hless : less.any (·.name.same name) = false := by
      rw [List.any_eq_false] at hmore ⊢
      exact fun t ht => hmore t (less_more.subset ht)
    simp only [Shape.close, List.any_append, hinner, hmore, hless, Bool.false_or,
      closed_append_of_not_any hinner, closed_append_of_not_any hmore, closed_append_of_not_any hless,
      flatMap_served_of_plain hmoreplain, flatMap_served_of_plain hlessplain, List.nil_append]
    split
    · have hmk := @Alike.mk around further [] [] [] (closed name place outer).1
        (served ++ (inner.flatMap (·.served .unclosed) ++ (closed name place outer).2))
        List.nil_suffix List.nil_suffix List.nil_suffix
        ((suffix_closed name place outer).trans ((List.tail_suffix outer).trans outer_further))
      simpa using hmk
    · exact .mk more_around less_more less_around outer_further

theorem Alike.handle (h : Alike around further σ' σ) {token : Token} (place : Fragment)
    (hends : ∀ name ∈ token.closingName?, σ'.EndsInnermost around further name) :
    Alike around further (σ'.handle token place) (σ.handle token place) := by
  cases token with
  | openTag name attributes selfClosing => exact h.openTag _ _
  | closeTag name => exact h.close hplain place (hends name rfl)
  | runatOnClosingTag name => exact h.close hplain place (hends name rfl)
  | _ => exact h

omit hplain

/-- The two read the same raw text, unless the first reads that of an element the second does not have;
then the second reads none. -/
theorem Alike.rawRun (h : Alike around further σ' σ)
    (hraw : ∀ tag ∈ around.tail ++ further, Builder.isRaw tag = false) (t : Text) :
    σ'.rawRun t = σ.rawRun t ∨
      σ.Parsing ∧ ∃ tag ∈ σ'.tags.head?, tag ∈ around ∧ Builder.isRaw tag = true := by
  obtain @⟨inner, more, less, outer, served, more_around, less_more, less_around, outer_further⟩ := h
  cases inner with
  | cons tag inner => exact .inl rfl
  | nil =>
  cases more with
  | nil =>
    rw [List.suffix_nil.1 less_more]
    exact .inl rfl
  | cons tag below =>
    have hparsing : Parsing ⟨[] ++ (less ++ outer), served⟩ := by
      intro top htop
      have hmem : top ∈ less ++ outer := List.mem_of_head? htop
      refine hraw top (List.mem_append.2 ?_)
      exact (List.mem_append.1 hmem).imp (less_around.subset ·) (outer_further.subset ·)
    cases htag : Builder.isRaw tag with
    | true => exact .inr ⟨hparsing, tag, rfl, more_around.subset (List.mem_cons_self ..), htag⟩
    | false =>
      left
      rw [hparsing.rawRun_eq_nil]
      exact Parsing.rawRun_eq_nil (fun top htop => by cases htop; exact htag) t

end

end Shape

namespace Node

/-- An element of `around` that ends with a closing tag of its own has nothing unclosed at its end, and
a name that none of `further` has. -/
def EndsAlone (around further : List Tag) : Node → Prop
  | .element tag (.closed _) children => tag ∈ around →
    lastUnclosed children = [] ∧ ∀ outer ∈ further, tag.name.same outer.name = false
  | _ => True

instance (around further : List Tag) : DecidablePred (EndsAlone around further)
  | .element _ (.closed _) _ => inferInstanceAs (Decidable (_ → _ ∧ ∀ _ ∈ further, _))
  | .element _ .selfClosing _ | .element _ .unclosed _ | .element _ .endOfInput _
  | .directive _ | .literal _ | .code _ _ _ | .binding _ _ _ => inferInstanceAs (Decidable True)

/-- The raw text of an element of `around` is inert. -/
def InertRaw (around : List Tag) : Node → Prop
  | .element tag _ children => tag ∈ around → Builder.isRaw tag = true →
    ∀ place, .literal place ∈ children → Lexeme.Inert place.text
  | _ => True

theorem inertRaw_of_forall {around : List Tag} (h : ∀ tag ∈ around, Builder.isRaw tag = false)
    (node : Node) : node.InertRaw around := by
  cases node with
  | element tag closing children =>
    intro htag hraw
    rw [h tag htag] at hraw
    cases hraw
  | _ => trivial

end Node

namespace Event

/-- What the walk comes to keeps elements of `around` apart from all others. -/
def Contained (around further : List Tag) : Event → Prop
  | .enter _ => True
  | .pass parent (.literal place) =>
    ∀ tag ∈ parent, tag ∈ around → Builder.isRaw tag = true → Lexeme.Inert place.text
  | .pass _ _ => True
  | .leave tag closing children => (Node.element tag closing children).EndsAlone around further

end Event

namespace Node

variable {around further : List Tag}

mutual

theorem contained_walk {parent : Option Tag} (node : Node)
    (h : ∀ inner ∈ node.within, inner.EndsAlone around further ∧ inner.InertRaw around)
    (hliteral : ∀ place, node = .literal place → (Event.pass parent node).Contained around further) :
    ∀ event ∈ node.walk parent, event.Contained around further := by
  cases node with
  | element tag closing children =>
    have hself := h _ (mem_within _)
    have hinside : ∀ event ∈ walkAll (some tag) children, event.Contained around further := by
      refine contained_walkAll children (fun inner hinner => h inner ?_) fun place hplace => ?_
      · simp [within, hinner]
      · rintro _ ⟨⟩ htag hraw
        exact hself.2 htag hraw place hplace
    simp only [walk, List.mem_cons, List.mem_append, List.not_mem_nil, or_false]
    rintro event (rfl | hevent | rfl)
    · trivial
    · exact hinside event hevent
    · exact hself.1
  | literal place => simpa [walk] using hliteral place rfl
  | _ => simp [walk, Event.Contained]

theorem contained_walkAll {parent : Option Tag} (nodes : List Node)
    (h : ∀ inner ∈ withinAll nodes, inner.EndsAlone around further ∧ inner.InertRaw around)
    (hliteral : ∀ place, .literal place ∈ nodes →
      (Event.pass parent (.literal place)).Contained around further) :
    ∀ event ∈ walkAll parent nodes, event.Contained around further := by
  cases nodes with
  | nil => simp [walkAll]
  | cons node nodes =>
    simp only [walkAll, List.mem_append]
    simp only [withinAll, List.mem_append] at h
    rintro event (hevent | hevent)
    · refine contained_walk node (fun inner hinner => h inner (.inl hinner)) ?_ event hevent
      rintro place rfl
      exact hliteral place (List.mem_cons_self ..)
    · exact contained_walkAll nodes (fun inner hinner => h inner (.inr hinner))
        (fun place hplace => hliteral place (List.mem_cons_of_mem _ hplace)) event hevent

end

end Node

namespace Builder

variable {b : Builder} {around further : List Tag}

theorem leave_mem_closeThrough {name : Text} (place : Fragment) {above below : List Frame} {frame : Frame}
    (hs : b.stack = above ++ frame :: below) (habove : ∀ f ∈ above, f.tag.name.same name = false)
    (hname : frame.tag.name.same name = true) :
    ∃ children, .leave frame.tag (.closed place) children ∈ (b.closeThrough name place).walk ∧
      (above = [] → children = frame.children.reverse) ∧
      (above ≠ [] → Node.lastUnclosed children ≠ []) := by
  fun_induction closeThrough b name place generalizing above frame with
  | case1 b hnil => simp [hnil] at hs
  | case2 b top outer htop htopname =>
    cases above with
    | cons first above =>
      rw [htop, List.cons_append, List.cons.injEq] at hs
      rw [hs.1, habove first (List.mem_cons_self ..)] at htopname
      cases htopname
    | nil =>
      rw [htop, List.nil_append, List.cons.injEq] at hs
      obtain ⟨rfl, rfl⟩ := hs
      refine ⟨_, ?_, fun _ => rfl, fun h => absurd rfl h⟩
      rw [← leave, walk_leave htop]
      simp
  | case3 b top outer htop htopname ih =>
    cases above with
    | nil =>
      rw [htop, List.nil_append, List.cons.injEq] at hs
      rw [hs.1] at htopname
      exact absurd hname htopname
    | cons first above =>
      rw [htop, List.cons_append, List.cons.injEq] at hs
      obtain ⟨rfl, rfl⟩ := hs
      have habove' : ∀ f ∈ above, f.tag.name.same name = false := fun f hf =>
        habove f (List.mem_cons_of_mem _ hf)
      let inside := Node.element top.tag .unclosed top.children.reverse
      have hpush : ∀ f outer, above ++ frame :: below = f :: outer →
          (b.closeInner .unclosed).stack = { f with children := inside :: f.children } :: outer := by
        intro f outer houter
        rw [closeInner_eq htop, leave, push, houter]
      cases above with
      | nil =>
        have hs : (b.closeInner .unclosed).stack =
            [] ++ { frame with children := inside :: frame.children } :: below := hpush frame below rfl
        obtain ⟨children, hmem, hchildren, -⟩ := ih hs habove' hname
        refine ⟨children, hmem, fun h => absurd h (List.cons_ne_nil _ _), fun _ => ?_⟩
        rw [hchildren rfl, List.reverse_cons, Node.lastUnclosed_concat]
        simp [inside, Node.unclosedChain]
      | cons next above =>
        have hs : (b.closeInner .unclosed).stack =
            ({ next with children := inside :: next.children } :: above) ++ frame :: below :=
          hpush next _ rfl
        have hnames : ∀ f ∈ { next with children := inside :: next.children } :: above,
            f.tag.name.same name = false := by
          intro f hf
          rcases List.mem_cons.1 hf with rfl | hf
          · exact habove' next (List.mem_cons_self ..)
          · exact habove' f (List.mem_cons_of_mem _ hf)
        obtain ⟨children, hmem, -, hchain⟩ := ih hs hnames hname
        exact ⟨children, hmem, fun h => absurd h (List.cons_ne_nil _ _),
          fun _ => hchain (List.cons_ne_nil _ _)⟩

theorem endsInnermost_of_contained {name : Text} {place : Fragment}
    (h : ∀ event ∈ (b.closeTag name place).walk, event.Contained around further) :
    b.shape.EndsInnermost around further name := by
  intro above tag below htags habove hname htag
  obtain ⟨inner, rest, hs, rfl, hrest⟩ := List.map_eq_append_iff.1 htags
  obtain ⟨frame, outer, rfl, rfl, -⟩ := List.map_eq_cons_iff.1 hrest
  have habove' : ∀ f ∈ inner, f.tag.name.same name = false := fun f hf =>
    habove f.tag (List.mem_map_of_mem hf)
  obtain ⟨children, hmem, -, hchain⟩ := leave_mem_closeThrough place hs habove' hname
  have hany : b.stack.any (·.tag.name.same name) = true := by simp [hs, hname]
  rw [closeTag, if_pos hany] at h
  obtain ⟨hlast, hnames⟩ := h _ hmem htag
  refine ⟨?_, hnames⟩
  cases inner with
  | nil => rfl
  | cons first inner => exact absurd hlast (hchain (List.cons_ne_nil _ _))

theorem endsInnermost_of_handle {token : Token} {place : Fragment} {name : Text}
    (h : ∀ event ∈ (b.handle token place).1.walk, event.Contained around further)
    (hname : name ∈ token.closingName?) : b.shape.EndsInnermost around further name := by
  cases token with
  | closeTag other =>
    cases hname
    exact endsInnermost_of_contained h
  | runatOnClosingTag other =>
    cases hname
    exact endsInnermost_of_contained (b := b.report (.runatOnClosingTag name) place.span) h
  | _ => cases hname

theorem mem_walk_run {event : Event} (offset : Nat) (t : Text) (h : event ∈ b.walk) :
    event ∈ (b.run offset t).walk := by
  obtain ⟨-, events, -, hwalk, -⟩ := b.codeStep_run offset t
  rw [hwalk]
  exact List.mem_append_left _ h

variable (hplain : ∀ tag ∈ around, tag.isServer = false)
  (hraw : ∀ tag ∈ around.tail ++ further, isRaw tag = false)

include hplain hraw

/-- With the first run one step on, the second is one step on, or past the raw text that the first has
read. -/
theorem alike_step {σ : Shape} {offset : Nat} {t : Text}
    (halike : Shape.Alike around further b.shape σ) (ht : t ≠ [])
    (h : ∀ event ∈ (b.step offset t).1.walk, event.Contained around further) :
    ∃ σ', Shape.Alike around further (b.step offset t).1.shape σ' ∧
      σ.run offset t = σ'.run (offset + (b.step offset t).2.byteLength)
        (t.drop (b.step offset t).2.length) := by
  have hread := halike.rawRun hraw t
  rw [shape_rawRun] at hread
  cases hrawRun : b.rawRun t with
  | nil =>
    have hσ : σ.rawRun t = [] := by
      rcases hread with hsame | ⟨hparsing, -⟩
      · rw [← hsame, hrawRun]
      · exact hparsing.rawRun_eq_nil t
    refine ⟨(σ.step offset t).1, ?_, ?_⟩
    · rw [step, hrawRun] at h
      rw [(b.shape_step offset t).1, Shape.step, Shape.step, shape_rawRun, hrawRun, hσ]
      exact halike.handle hplain _ fun name hname => endsInnermost_of_handle h hname
    · have hsame : (b.step offset t).2 = (σ.step offset t).2 := by
        rw [(b.shape_step offset t).2, Shape.step, Shape.step, shape_rawRun, hrawRun, hσ]
      rw [hsame, Shape.run_of_ne_nil _ _ ht]
  | cons c raw =>
    have hstep : b.step offset t = (b.pushLiteral ⟨offset, c :: raw⟩, c :: raw) := by rw [step, hrawRun]
    rw [hstep] at h ⊢
    dsimp only at h ⊢
    rw [shape_pushLiteral]
    refine ⟨σ, halike, ?_⟩
    rcases hread with hsame | ⟨hparsing, tag, htop, htag, hrawTag⟩
    · have hσ : σ.step offset t = (σ, c :: raw) := by rw [Shape.step, ← hsame, hrawRun]
      rw [Shape.run_of_ne_nil _ _ ht, hσ]
    · have hpass : .pass b.parent? (.literal ⟨offset, c :: raw⟩) ∈
          (b.pushLiteral ⟨offset, c :: raw⟩).walk := by simp [pushLiteral, walk_push, Node.walk]
      have hparent : tag ∈ b.parent? := by simpa [shape, parent?] using htop
      have hinert := h _ hpass tag hparent htag hrawTag
      obtain ⟨rest, rfl⟩ : c :: raw <+: t := hrawRun ▸ isPrefix_rawRun b t
      rw [List.drop_left]
      exact hparsing.run_inert offset hinert

theorem alike_run {σ : Shape} {offset : Nat} {t : Text} (halike : Shape.Alike around further b.shape σ)
    (h : ∀ event ∈ (b.run offset t).walk, event.Contained around further) :
    Shape.Alike around further (b.run offset t).shape (σ.run offset t) := by
  fun_induction run b offset t generalizing σ with
  | case1 b offset => rwa [Shape.run_nil]
  | @case2 b offset t ht next ih =>
    obtain ⟨σ', halike', hrun⟩ := alike_step hplain hraw halike ht fun event hevent =>
      h event (mem_walk_run _ _ hevent)
    rw [hrun]
    exact ih halike' h

end Builder

end ServerPages
