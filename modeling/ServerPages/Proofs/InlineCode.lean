import ServerPages.Proofs.Alike

/-! Inline code in a plain tag. Such a tag is text to the builder, so its closing tag may end an element
around it, and what stays open inside it stays open behind it. Where neither happens, server elements
nest as they do when the code is no code. -/

namespace ServerPages

namespace Text

/-- Text in front of the first code mark holds none in front of other text either. -/
theorem cut?_code_append {front more other rest : Text}
    (h : (front ++ more).cut? ['<', '%'] = some (front, rest)) (hother : other.head? ≠ some '%') :
    (front ++ other).cut? ['<', '%'] =
      (other.cut? ['<', '%']).map fun parts => (front ++ parts.1, parts.2) := by
  induction front with
  | nil => simp
  | cons c front ih =>
    rw [List.cons_append, cut?] at h
    split at h
    · simp at h
    · next hnone =>
      obtain ⟨parts, hparts, heq⟩ := Option.map_eq_some_iff.1 h
      have hfront : parts = (front, rest) := by simpa [Prod.ext_iff] using heq
      have hnone' : after? (c :: (front ++ other)) ['<', '%'] = none := by
        rw [after?_code_eq_none] at hnone ⊢
        cases front with
        | nil => exact fun hc => hother hc.2
        | cons d front => exact hnone
      rw [List.cons_append, cut?, hnone', ih (hfront ▸ hparts), Option.map_map]
      rfl

end Text

/-- The text of a tag with a block in it. In front of `opening`'s end there is no code, and from there
on nothing but blocks and text. -/
structure CodeTag where
  opening : Text
  before : Text
  block : Text
  after : Text
  opens : Builder.beforeCode? (opening ++ (before ++ (block ++ after))) = some opening
  isBlock : Lexeme.IsBlock block
  before_inert : Lexeme.Inert before
  after_inert : Lexeme.Inert after

namespace CodeTag

variable (code : CodeTag)

def text : Text := code.opening ++ (code.before ++ (code.block ++ code.after))

/-- the text with the letter x for every byte of the block -/
def masked : Text :=
  code.opening ++ (code.before ++ (List.replicate code.block.byteLength 'x' ++ code.after))

theorem byteLength_masked : code.masked.byteLength = code.text.byteLength := by
  have hx : ∀ n, Text.byteLength (List.replicate n 'x') = n := by
    intro n
    induction n with
    | zero => rfl
    | succ n ih =>
      rw [List.replicate_succ, Text.byteLength_cons, ih, show 'x'.utf8Size = 1 from rfl, Nat.add_comm]
  simp [masked, text, hx]

theorem inert : Lexeme.Inert (code.before ++ (code.block ++ code.after)) :=
  code.before_inert.append (.block code.isBlock code.after_inert)

theorem masked_inert :
    Lexeme.Inert (code.before ++ (List.replicate code.block.byteLength 'x' ++ code.after)) := by
  refine code.before_inert.append (.append (.of_forall fun c hc => ?_) code.after_inert)
  rw [List.eq_of_mem_replicate hc]
  decide

theorem opens_cut? : ∃ c front rest, code.opening = c :: front ∧
    Text.cut? (front ++ (code.before ++ (code.block ++ code.after))) ['<', '%'] =
      some (front, rest) := by
  have h := code.opens
  cases hopening : code.opening with
  | nil =>
    rw [hopening] at h
    cases ht : code.before ++ (code.block ++ code.after) with
    | nil => simp [ht, Builder.beforeCode?] at h
    | cons c t => simp [ht, Builder.beforeCode?] at h
  | cons c front =>
    rw [hopening] at h
    obtain ⟨⟨before, rest⟩, hcut, heq⟩ := Option.map_eq_some_iff.1 h
    have hfront : before = front := by simpa using heq
    exact ⟨c, front, rest, rfl, hfront ▸ hcut⟩

/-- If the masked text still holds code, it is inert from there on. -/
theorem inert_of_beforeCode?_masked {front : Text} (h : Builder.beforeCode? code.masked = some front) :
    ∃ rest, code.masked = front ++ rest ∧ Lexeme.Inert rest := by
  obtain ⟨c, opening, rest, hopening, hcut⟩ := code.opens_cut?
  have hhead : (code.before ++ (List.replicate code.block.byteLength 'x' ++ code.after)).head? ≠
      some '%' := by
    have hmark := List.append_cancel_left (Text.cut?_eq_some hcut)
    cases hbefore : code.before with
    | nil =>
      obtain ⟨body, hblock, -⟩ := code.isBlock.eq_scanBlock
      have hpos : 0 < code.block.byteLength := Text.byteLength_pos (by simp [hblock])
      obtain ⟨n, hn⟩ : ∃ n, code.block.byteLength = n + 1 := ⟨_, (Nat.succ_pred_eq_of_pos hpos).symm⟩
      simp [hn, List.replicate_succ]
    | cons d before =>
      rw [hbefore] at hmark
      have hd : d = '<' := by simpa using congrArg List.head? hmark
      simp [hd]
  have hmasked := Text.cut?_code_append hcut hhead
  rw [masked, hopening, List.cons_append, Builder.beforeCode?, hmasked] at h
  obtain ⟨⟨later, back⟩, hparts, rfl⟩ := Option.map_eq_some_iff.1 h
  obtain ⟨⟨later', back'⟩, hlater, heq⟩ := Option.map_eq_some_iff.1 hparts
  cases heq
  refine ⟨['<', '%'] ++ back', ?_, code.masked_inert.of_cut? hlater⟩
  rw [masked, hopening, Text.cut?_eq_some hlater]
  simp

end CodeTag

/-- In front of `back` the text of the tag is read as an opening tag, and gives this tag. -/
def Tag.Opens (tag : Tag) (selfClosing : Bool) (back : Text) : Prop :=
  ∃ attributes, Lexeme.scan (tag.opening.text ++ back) =
      ⟨.openTag tag.name attributes selfClosing, tag.opening.text⟩ ∧
    tag = .ofLexeme tag.name ⟨tag.opening.offset + 1 + tag.name.byteLength, attributes⟩ tag.opening

theorem Tag.Opens.ne_nil {tag : Tag} {selfClosing : Bool} {back : Text} (h : tag.Opens selfClosing back) :
    tag.opening.text ++ back ≠ [] := by
  obtain ⟨_, hscan, -⟩ := h
  intro hnil
  rw [hnil] at hscan
  simp [Lexeme.scan] at hscan

namespace Shape

variable {σ : Shape} {tag : Tag} {selfClosing : Bool} {back : Text}

theorem step_opens (h : tag.Opens selfClosing back)
    (hraw : σ.rawRun (tag.opening.text ++ back) = []) :
    σ.step tag.opening.offset (tag.opening.text ++ back) =
      (σ.openTag tag selfClosing, tag.textPart?.getD tag.opening.text) := by
  obtain ⟨attributes, hscan, htag⟩ := h
  unfold step
  rw [hraw, hscan]
  simp only [handle, Token.read, Token.innerOffset]
  rw [← htag]

/-- A plain tag with inline code leaves the nesting alone. -/
theorem Parsing.run_opens (hσ : σ.Parsing) (h : tag.Opens selfClosing back) {front rest : Text}
    (hcode : tag.textPart? = some front) (htext : tag.opening.text = front ++ rest)
    (hrest : Lexeme.Inert rest) :
    σ.run tag.opening.offset (tag.opening.text ++ back) =
      σ.run (tag.opening.offset + tag.opening.text.byteLength) back := by
  have hstep := step_opens h (hσ.rawRun_eq_nil _)
  have hkeep : σ.openTag tag selfClosing = σ := by simp [openTag, hcode]
  rw [run_of_ne_nil _ _ h.ne_nil, hstep, hkeep, hcode, Option.getD_some, htext, List.append_assoc,
    List.drop_left, hσ.run_inert _ hrest, Text.byteLength_append, Nat.add_assoc]

end Shape

namespace Tag

def staysOpen (tag : Tag) (selfClosing : Bool) : Bool :=
  tag.textPart?.isNone && !(selfClosing || Builder.isVoid tag)

/-- The elements of `around` are plain and contain what starts in them: none is closed by a tag of its own
over one that is unclosed, or under a name that one of `further` has, and raw text in them is no markup. -/
structure Contains (nodes : List Node) (around further : List Tag) : Prop where
  plain : ∀ tag ∈ around, tag.isServer = false
  alone : ∀ node ∈ Node.withinAll nodes, node.EndsAlone around further
  raw : ∀ node ∈ Node.withinAll nodes, node.InertRaw around

end Tag

namespace Builder

/-- Behind `front` the builder is in front of this plain tag, and reads it as an opening tag. -/
structure Meets (b : Builder) (front : Text) (tag : Tag) (selfClosing : Bool) (back : Text) : Prop where
  offset : tag.opening.offset = front.byteLength
  turn : ⟨b, tag.opening.offset, tag.opening.text ++ back⟩ ∈
    ServerPages.turns (front ++ (tag.opening.text ++ back))
  markup : b.rawRun (tag.opening.text ++ back) = []
  opens : tag.Opens selfClosing back
  plain : tag.isServer = false

namespace Meets

variable {b : Builder} {front back : Text} {tag : Tag} {selfClosing : Bool}
  (h : b.Meets front tag selfClosing back)

include h

theorem parsing : b.shape.Parsing := by
  obtain ⟨attributes, hscan, -⟩ := h.opens
  exact Shape.parsing_of_scan hscan (by rw [shape_rawRun, h.markup])

theorem isRaw_eq_false : ∀ outer ∈ b.shape.tags, isRaw outer = false := by
  have htop : Builder.empty.shape.RawOnTop := by simp [Shape.RawOnTop, shape, Builder.empty]
  have hrest := rawOnTop_of_mem_turns htop h.turn
  intro outer houter
  cases htags : b.shape.tags with
  | nil => simp [htags] at houter
  | cons top tags =>
    rw [htags] at houter
    rcases List.mem_cons.1 houter with rfl | houter
    · exact h.parsing outer (by simp [htags])
    · exact hrest outer (by rw [htags]; exact houter)

theorem run_empty : Builder.empty.run 0 (front ++ (tag.opening.text ++ back)) =
    b.run tag.opening.offset (tag.opening.text ++ back) := run_of_mem_turns h.turn

theorem servers_eq : Node.servers (parse (front ++ (tag.opening.text ++ back))).nodes =
    (b.shape.run tag.opening.offset (tag.opening.text ++ back)).finish := by
  rw [servers_parse, h.run_empty, shape_run]

theorem run_eq (hcode : tag.textPart? = none) :
    (b.step tag.opening.offset (tag.opening.text ++ back)).1.shape = b.shape.openTag tag selfClosing ∧
      b.run tag.opening.offset (tag.opening.text ++ back) =
        (b.step tag.opening.offset (tag.opening.text ++ back)).1.run
          (tag.opening.offset + tag.opening.text.byteLength) back := by
  have hstep := Shape.step_opens h.opens (h.parsing.rawRun_eq_nil _)
  obtain ⟨hshape, hread⟩ := b.shape_step tag.opening.offset (tag.opening.text ++ back)
  rw [hstep] at hshape hread
  rw [hcode, Option.getD_none] at hread
  refine ⟨hshape, ?_⟩
  rw [run, dif_neg h.opens.ne_nil]
  simp only [hread, List.drop_left]

end Meets

end Builder

namespace Shape

variable {σ : Shape} {tag : Tag}

theorem openTag_of_plain (h : tag.isServer = false) (selfClosing : Bool) :
    σ.openTag tag selfClosing = if tag.staysOpen selfClosing then σ.enter tag else σ := by
  unfold Shape.openTag Tag.staysOpen
  cases tag.textPart? with
  | some front => rfl
  | none => cases hend : selfClosing || Builder.isVoid tag <;> simp [serve, Tag.served_of_plain h]

end Shape

/-- Server elements nest as if the tag were not there, if its element and the plain ones around it contain
what starts in them. -/
theorem Builder.Meets.servers_eq_skip {b : Builder} {front back : Text} {tag : Tag} {selfClosing : Bool}
    (h : b.Meets front tag selfClosing back) (hcode : tag.textPart? = none)
    (hcontains : tag.staysOpen selfClosing = true → ∃ around further,
      b.shape.tags = around ++ further ∧
        Tag.Contains (parse (front ++ (tag.opening.text ++ back))).nodes (tag :: around) further) :
    Node.servers (parse (front ++ (tag.opening.text ++ back))).nodes =
      (b.shape.run (tag.opening.offset + tag.opening.text.byteLength) back).finish := by
  obtain ⟨hshape, hrun⟩ := h.run_eq hcode
  rw [Shape.openTag_of_plain h.plain] at hshape
  rw [servers_parse, h.run_empty, hrun]
  cases hstays : tag.staysOpen selfClosing with
  | false =>
    rw [hstays] at hshape
    rw [Builder.shape_run, hshape]
    rfl
  | true =>
    rw [hstays, if_pos rfl] at hshape
    obtain ⟨around, further, htags, hplain, halone, hraw⟩ := hcontains hstays
    have hstart : Shape.Alike (tag :: around) further
        (b.step tag.opening.offset (tag.opening.text ++ back)).1.shape b.shape := by
      have hshapes : b.shape = ⟨[] ++ (around ++ further), b.shape.served⟩ := by
        rw [List.nil_append, ← htags]
      rw [hshape, hshapes]
      exact @Shape.Alike.mk (tag :: around) further [] (tag :: around) around further b.shape.served
        (List.suffix_refl _) (List.suffix_cons ..) (List.suffix_refl _) (List.suffix_refl _)
    have hrest : ∀ outer ∈ (tag :: around).tail ++ further, Builder.isRaw outer = false := by
      rw [List.tail_cons, ← htags]
      exact h.isRaw_eq_false
    have hcontained : ∀ event ∈ (Builder.empty.run 0 (front ++ (tag.opening.text ++ back))).walk,
        event.Contained (tag :: around) further := by
      intro event hevent
      refine Node.contained_walkAll _ (fun node hnode => ⟨halone node hnode, hraw node hnode⟩) ?_
        event (mem_walkAll_parse hevent)
      -- a literal at the top level is in no element
      intro place _ outer houter
      cases houter
    rw [h.run_empty, hrun] at hcontained
    exact (Builder.alike_run hplain hrest hstart hcontained).finish hplain

/-- A page has the server elements that it has with letters for a block in a plain tag, each with the same
end, if both come to the tag in the same nesting and, where the tag without code leaves its element open,
that one and the plain elements around it contain what starts in them. -/
theorem servers_parse_masked (code : CodeTag) {front back : Text} {b b' : Builder} {tag masked : Tag}
    {selfClosing selfClosing' : Bool} (htext : tag.opening.text = code.text)
    (hmasked : masked.opening.text = code.masked) (h : b.Meets front tag selfClosing back)
    (h' : b'.Meets front masked selfClosing' back) (hfront : b'.shape = b.shape)
    (hcontains : masked.staysOpen selfClosing' = true → ∃ around further,
      b.shape.tags = around ++ further ∧
        Tag.Contains (parse (front ++ (masked.opening.text ++ back))).nodes (masked :: around) further) :
    Node.servers (parse (front ++ (tag.opening.text ++ back))).nodes =
      Node.servers (parse (front ++ (masked.opening.text ++ back))).nodes := by
  have hcode : tag.textPart? = some code.opening := by
    rw [Tag.textPart?, h.plain, htext]
    exact code.opens
  have hoffset : tag.opening.offset + tag.opening.text.byteLength =
      masked.opening.offset + masked.opening.text.byteLength := by
    rw [h.offset, h'.offset, htext, hmasked, code.byteLength_masked]
  rw [h.servers_eq, h.parsing.run_opens h.opens hcode htext code.inert, hoffset]
  rw [← hfront] at hcontains ⊢
  cases hcode' : masked.textPart? with
  | none => exact (h'.servers_eq_skip hcode' hcontains).symm
  | some front' =>
    -- there is code besides the block, so the masked tag is text as well
    have hcut : Builder.beforeCode? code.masked = some front' := by
      rw [← hcode', Tag.textPart?, h'.plain, hmasked]
      rfl
    obtain ⟨rest, hrest, hinert⟩ := code.inert_of_beforeCode?_masked hcut
    rw [h'.servers_eq, h'.parsing.run_opens h'.opens hcode' (hmasked.trans hrest) hinert]

/-- A paragraph in a plain element in a server element: the closing tag of the paragraph is text. -/
theorem servers_parse_masked_paragraph :
    Node.servers (parse "<asp:Panel><div><p class=\"<%=c%>\"></p></div></asp:Panel>".toList).nodes =
      Node.servers (parse "<asp:Panel><div><p class=\"xxxxxx\"></p></div></asp:Panel>".toList).nodes := by
  let panel : Tag := ⟨"asp:Panel".toList, [], ⟨0, "<asp:Panel>".toList⟩, false⟩
  let div : Tag := ⟨"div".toList, [], ⟨11, "<div>".toList⟩, false⟩
  let back := "</p></div></asp:Panel>".toList
  let code : CodeTag := ⟨"<p class=\"".toList, [], "<%=c%>".toList, "\">".toList, by decide +kernel,
    ⟨by decide +kernel, by decide +kernel⟩, .nil, .of_forall (by simp)⟩
  let tag := Tag.ofLexeme ['p'] ⟨18, " class=\"<%=c%>\"".toList⟩ ⟨16, code.text⟩
  let masked := Tag.ofLexeme ['p'] ⟨18, " class=\"xxxxxx\"".toList⟩ ⟨16, code.masked⟩
  -- the builder that has read the two tags in front of `text`
  let reached := fun text : Text =>
    ((Builder.empty.step 0 ("<asp:Panel>".toList ++ ("<div>".toList ++ (text ++ back)))).1.step 11
      ("<div>".toList ++ (text ++ back))).1
  have hturn : ∀ text ∈ [code.text, code.masked], ⟨reached text, 16, text ++ back⟩ ∈
      turns ("<asp:Panel>".toList ++ "<div>".toList ++ (text ++ back)) := by
    intro text htext
    have hread : ∀ text ∈ [code.text, code.masked],
        (Builder.empty.step 0 ("<asp:Panel>".toList ++ ("<div>".toList ++ (text ++ back)))).2 =
          "<asp:Panel>".toList ∧
        ((Builder.empty.step 0 ("<asp:Panel>".toList ++ ("<div>".toList ++ (text ++ back)))).1.step 11
          ("<div>".toList ++ (text ++ back))).2 = "<div>".toList ∧ text ++ back ≠ [] := by
      decide +kernel
    obtain ⟨hpanel, hdiv, hne⟩ := hread text htext
    rw [List.append_assoc]
    refine Builder.mem_turns_of_step _ (by decide +kernel) hpanel ?_
    exact Builder.mem_turns_of_step _ (by decide +kernel) hdiv (Builder.mem_turns_self _ _ hne)
  have h : (reached code.text).Meets ("<asp:Panel>".toList ++ "<div>".toList) tag false back :=
    ⟨rfl, hturn code.text (by simp), by decide +kernel, ⟨_, by decide +kernel, rfl⟩, by decide +kernel⟩
  have h' : (reached code.masked).Meets ("<asp:Panel>".toList ++ "<div>".toList) masked false back :=
    ⟨rfl, hturn code.masked (by simp), by decide +kernel, ⟨_, by decide +kernel, rfl⟩, by decide +kernel⟩
  have hplain : ∀ inner ∈ [masked, div], inner.isServer = false ∧ Builder.isRaw inner = false := by
    decide +kernel
  have halone : ∀ node ∈ Node.withinAll (parse (("<asp:Panel>".toList ++ "<div>".toList) ++
      (masked.opening.text ++ back))).nodes, node.EndsAlone [masked, div] [panel] := by
    decide +kernel
  have hpages : "<asp:Panel><div><p class=\"<%=c%>\"></p></div></asp:Panel>".toList =
        "<asp:Panel>".toList ++ "<div>".toList ++ (tag.opening.text ++ back) ∧
      "<asp:Panel><div><p class=\"xxxxxx\"></p></div></asp:Panel>".toList =
        "<asp:Panel>".toList ++ "<div>".toList ++ (masked.opening.text ++ back) := by
    decide +kernel
  rw [hpages.1, hpages.2]
  exact servers_parse_masked code rfl rfl h h' (by decide +kernel) fun _ =>
    ⟨[div], [panel], by decide +kernel, fun inner hinner => (hplain inner hinner).1, halone,
      fun node _ => Node.inertRaw_of_forall (fun inner hinner => (hplain inner hinner).2) node⟩

/-- Inside another element of its name the closing tag of the tag ends that one, and the server element
in between with it. -/
theorem servers_parse_masked_sameName :
    let page := "<div><asp:Panel><div class=\"<%=c%>\"></div></asp:Panel></div>".toList
    let masked := "<div><asp:Panel><div class=\"xxxxxx\"></div></asp:Panel></div>".toList
    let panel : Tag := ⟨"asp:Panel".toList, [], ⟨5, "<asp:Panel>".toList⟩, false⟩
    16 ∈ (turns page).map (·.offset) ∧
      Lexeme.at? page 16 = some ⟨.openTag "div".toList " class=\"<%=c%>\"".toList false,
        "<div class=\"<%=c%>\">".toList⟩ ∧
      Lexeme.at? page 28 = some ⟨.code .expression ['c'], "<%=c%>".toList⟩ ∧
      Node.servers (parse page).nodes = [(panel, .unclosed)] ∧
      Node.servers (parse masked).nodes = [(panel, .closed ⟨42, "</asp:Panel>".toList⟩)] := by
  decide +kernel

/-- Server elements also differ where the page in front of the tag, or the tag itself, is read in another
way, where markup follows the code in the tag or stands in the raw text of its element, and where its
element, or a plain one of its name around it, is closed over an unclosed one. -/
theorem servers_parse_ne_masked :
    ∀ pages ∈ [("<a b=\" <p c='<%=\"d\"%>'><a:e/>\">", "<a b=\" <p c='xxxxxxxx'><a:e/>\">"),
      ("<p a=\"<%#b%>\" <%=c%> runat='server'><%#d%>\">", "<p a=\"<%#b%>\" xxxxxx runat='server'><%#d%>\">"),
      ("<p a='<%=c%><a:b/>'>", "<p a='xxxxxx<a:b/>'>"),
      ("<style a='<%=c%>'><a:b/></style>", "<style a='xxxxxx'><a:b/></style>"),
      ("<p a='<%=c%>'><a:b></p>", "<p a='xxxxxx'><a:b></p>"),
      ("<p><p a='<%=c%>'></p><a:b></p>", "<p><p a='xxxxxx'></p><a:b></p>")],
      Node.servers (parse pages.1.toList).nodes ≠ Node.servers (parse pages.2.toList).nodes := by
  decide +kernel

end ServerPages
