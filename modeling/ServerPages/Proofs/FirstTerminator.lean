import ServerPages.Proofs.Blocks

/-! Blocks and their first terminators. The grammar of a block is six patterns, each ended by the shortest
run of characters that lets it match, tried in a fixed order. Read in that order they find the block that a
scanner finds which looks once for the first terminator and then at the characters behind the `<%`. -/

namespace ServerPages

namespace Text

/-- The first place from `low` on where `mark` stands, in characters. -/
def firstAt? (t mark : Text) (low : Nat) : Option Nat :=
  (List.range' low (t.length - low)).find? fun place => mark.isPrefixOf (t.drop place)

theorem isPrefixOf_eq (t mark : Text) : mark.isPrefixOf t = (t.after? mark).isSome := by
  induction mark generalizing t with
  | nil => simp [after?]
  | cons m mark ih =>
    cases t with
    | nil => rfl
    | cons c t =>
      rw [List.isPrefixOf, after?, ih]
      by_cases hc : c = m
      · simp [hc]
      · simp [hc, Ne.symm hc]

theorem firstAt?_append (front t mark : Text) :
    (front ++ t).firstAt? mark front.length =
      (t.cut? mark).map fun parts => front.length + parts.1.length := by
  induction t generalizing front with
  | nil => simp [firstAt?, cut?]
  | cons c t ih =>
    have hlater := ih (front ++ [c])
    simp only [firstAt?, List.length_append, List.length_cons, List.length_nil, List.append_assoc,
      List.cons_append, List.nil_append, Nat.zero_add, Nat.add_sub_cancel_left] at hlater ⊢
    rw [List.range'_succ, List.find?_cons, List.drop_left, isPrefixOf_eq, cut?]
    cases hafter : after? (c :: t) mark with
    | some rest => simp
    | none =>
      simp only [Option.isSome_none]
      rw [show front.length + (t.length + 1) - (front.length + 1) = t.length by omega] at hlater
      rw [hlater, Option.map_map]
      congr 1
      funext parts
      simp only [Function.comp_apply, List.length_cons]
      omega

theorem cut?_close_cons {c : Char} (hc : c ≠ '%') (t : Text) : cut? (c :: t) ['%', '>'] =
    (t.cut? ['%', '>']).map fun parts => (c :: parts.1, parts.2) := by
  rw [cut?, after?, if_neg hc]

theorem head?_of_cut? {t mark front back : Text} (h : t.cut? mark = some (front, back)) :
    ∀ c ∈ front.head?, t.head? = some c := by
  intro c hc
  rw [cut?_eq_some h, List.head?_append, hc, Option.some_or]

/-- The text up to the first mark behind `front`, or all of it. -/
theorem take_cut? (front t mark : Text) :
    ((t.cut? mark).map fun parts => (front ++ t).take (front.length + parts.1.length)).getD
      (front ++ t) = front ++ ((t.cut? mark).map Prod.fst).getD t := by
  cases hcut : t.cut? mark with
  | none => rfl
  | some parts =>
    have ht : t = parts.1 ++ (mark ++ parts.2) := cut?_eq_some hcut
    have htake : t.take parts.1.length = parts.1 := by
      rw [ht, List.take_left]
    simp [List.take_length_add_append, htake]

section Cut

variable {t mark body back : Text} (hcut : t.cut? mark = some (body, back))
include hcut

theorem take_through (front : Text) :
    (front ++ t).take (front.length + body.length + mark.length) = front ++ (body ++ mark) := by
  have ht : front ++ t = front ++ (body ++ mark) ++ back := by
    rw [cut?_eq_some hcut]
    simp only [List.append_assoc]
  rw [ht, List.take_left']
  simp only [List.length_append]
  omega

theorem extract_between (front : Text) :
    (front ++ t).extract front.length (front.length + body.length) = body := by
  rw [List.extract_eq_take_drop, List.drop_left, cut?_eq_some hcut, List.take_left']
  omega

end Cut

/-- The next directive starts in front of the terminator of this one exactly when it starts in the body:
the two marks cannot overlap. -/
theorem any_lt_firstAt? {t body back : Text} (hcut : t.cut? ['%', '>'] = some (body, back)) (n : Nat) :
    ((t.cut? ['<', '%', '@']).map fun parts => n + parts.1.length).any (· < n + body.length) =
      body.holds ['<', '%', '@'] := by
  rw [Bool.eq_iff_iff, Option.any_eq_true]
  constructor
  · rintro ⟨place, hplace, hlt⟩
    obtain ⟨⟨front, after⟩, hnext, rfl⟩ := Option.map_eq_some_iff.1 hplace
    simp only [decide_eq_true_eq, Nat.add_lt_add_iff_left] at hlt
    have hboth := (cut?_eq_some hnext).symm.trans (cut?_eq_some hcut)
    rcases List.append_eq_append_iff.1 hboth with ⟨more, hbody, hmore⟩ | ⟨more, hfront, -⟩
    · rw [hbody, holds_iff (by simp)]
      rcases more with _ | ⟨c, _ | ⟨d, _ | ⟨e, more⟩⟩⟩
      · simp [hbody] at hlt
      · simp at hmore
      · simp at hmore
      · simp only [List.cons_append, List.nil_append, List.cons.injEq] at hmore
        obtain ⟨rfl, rfl, rfl, -⟩ := hmore
        exact ⟨front, more, rfl⟩
    · rw [hfront, List.length_append] at hlt
      omega
  · intro hholds
    obtain ⟨⟨front, more⟩, hnext⟩ := Option.isSome_iff_exists.1 hholds
    have hlength := length_of_cut? hnext
    refine ⟨n + front.length, ?_, ?_⟩
    · rw [cut?_eq_some hcut, cut?_append hnext]
      rfl
    · simp only [List.length_cons] at hlength
      simp only [decide_eq_true_eq]
      omega

end Text

/-- The patterns that the grammar of blocks is made of. -/
inductive Pattern where
  | literal (mark : Text)
  /-- any characters, line ends too, as few as will do -/
  | anything
  /-- `pattern` or nothing, and `pattern` first -/
  | optional (pattern : Pattern)
  | group (number : Nat) (pattern : Pattern)
  | followed (first second : Pattern)

namespace Pattern

/-- A front part that a pattern matches, what its groups took of it, and what follows. -/
structure Match where
  taken : Text
  groups : List (Nat × Text)
  rest : Text

def Match.group? (m : Match) (number : Nat) : Option Text := m.groups.lookup number

def Match.group (m : Match) (number : Nat) : Text := (m.group? number).getD []

/-- The matches at the start of a text, each in front of those it is preferred to. -/
def ways : Pattern → Text → List Match
  | literal mark, t => ((t.after? mark).map fun rest => ⟨mark, [], rest⟩).toList
  | anything, t => (List.range (t.length + 1)).map fun n => ⟨t.take n, [], t.drop n⟩
  | optional pattern, t => pattern.ways t ++ [⟨[], [], t⟩]
  | group number pattern, t =>
    (pattern.ways t).map fun m => { m with groups := (number, m.taken) :: m.groups }
  | followed first second, t =>
    (first.ways t).flatMap fun m =>
      (second.ways m.rest).map fun n => ⟨m.taken ++ n.taken, m.groups ++ n.groups, n.rest⟩

def first? (pattern : Pattern) (t : Text) : Option Match := (pattern.ways t).head?

variable {t mark : Text} {pattern : Pattern}

theorem first?_literal_followed :
    ((literal mark).followed pattern).first? t = (t.after? mark).bind fun rest =>
      (pattern.first? rest).map fun m => ⟨mark ++ m.taken, m.groups, m.rest⟩ := by
  cases hafter : t.after? mark <;> simp [first?, ways, hafter]

theorem first?_optional_followed {before : Pattern} :
    (before.optional.followed pattern).first? t =
      ((before.followed pattern).first? t).or (pattern.first? t) := by
  simp [first?, ways, List.head?_append, List.flatMap_append]

theorem first?_group_literal_followed {number : Nat} :
    ((group number (literal mark)).followed pattern).first? t = (t.after? mark).bind fun rest =>
      (pattern.first? rest).map fun m => ⟨mark ++ m.taken, (number, mark) :: m.groups, m.rest⟩ := by
  cases hafter : t.after? mark <;> simp [first?, ways, hafter]

/-- The shortest run in front of a mark ends at the first mark. -/
theorem findSome?_runs {α : Type} (hmark : mark ≠ []) (t : Text) (f : Text → Text → α) :
    ((List.range (t.length + 1)).findSome? fun n =>
      (Text.after? (t.drop n) mark).map (f (t.take n))) =
      (t.cut? mark).map fun parts => f parts.1 parts.2 := by
  induction t generalizing f with
  | nil =>
    obtain ⟨c, mark, rfl⟩ := List.exists_cons_of_ne_nil hmark
    simp [Text.cut?, Text.after?]
  | cons c t ih =>
    have hlater := ih fun front => f (c :: front)
    rw [List.length_cons, List.range_succ_eq_map, List.findSome?_cons, List.findSome?_map]
    simp only [Function.comp_def, List.drop_succ_cons, List.take_succ_cons, hlater, List.drop_zero,
      List.take_zero, Text.cut?]
    cases hafter : Text.after? (c :: t) mark <;> simp [Function.comp_def]

theorem first?_anything_followed (hmark : mark ≠ []) :
    (anything.followed (literal mark)).first? t =
      (t.cut? mark).map fun parts => ⟨parts.1 ++ mark, [], parts.2⟩ := by
  rw [← findSome?_runs hmark t fun front rest => (⟨front ++ mark, [], rest⟩ : Match)]
  simp [first?, ways, List.flatMap_map, List.head?_flatMap, Function.comp_def]

theorem first?_group_anything_followed (hmark : mark ≠ []) {number : Nat} :
    ((group number anything).followed (literal mark)).first? t =
      (t.cut? mark).map fun parts => ⟨parts.1 ++ mark, [(number, parts.1)], parts.2⟩ := by
  rw [← findSome?_runs hmark t fun front rest => (⟨front ++ mark, [(number, front)], rest⟩ : Match)]
  simp [first?, ways, List.flatMap_map, List.head?_flatMap, Function.comp_def]

/-- `<%--.*?--%>` -/
def comment : Pattern :=
  (literal ['<', '%', '-', '-']).followed (anything.followed (literal ['-', '-', '%', '>']))

/-- `(.*?)%>` after a mark: directives, and code of each kind -/
def block (mark : Text) : Pattern :=
  (literal mark).followed ((group 1 anything).followed (literal ['%', '>']))

/-- `<%#(:)?(.*?)%>` -/
def binding : Pattern :=
  (literal ['<', '%', '#']).followed
    ((group 1 (literal [':'])).optional.followed ((group 2 anything).followed (literal ['%', '>'])))

theorem first?_comment : comment.first? t = (t.after? ['<', '%', '-', '-']).bind fun rest =>
    (rest.cut? ['-', '-', '%', '>']).map fun parts =>
      ⟨['<', '%', '-', '-'] ++ (parts.1 ++ ['-', '-', '%', '>']), [], parts.2⟩ := by
  rw [comment, first?_literal_followed]
  simp [first?_anything_followed, Function.comp_def]

theorem first?_block : (block mark).first? t = (t.after? mark).bind fun rest =>
    (rest.cut? ['%', '>']).map fun parts =>
      ⟨mark ++ (parts.1 ++ ['%', '>']), [(1, parts.1)], parts.2⟩ := by
  rw [block, first?_literal_followed]
  simp [first?_group_anything_followed, Function.comp_def]

/-- The colon of a binding is taken when it is there: without it no more texts match. -/
theorem first?_binding : binding.first? t = (t.after? ['<', '%', '#']).bind fun rest =>
    match rest with
    | ':' :: rest => (Text.cut? rest ['%', '>']).map fun parts =>
        ⟨['<', '%', '#', ':'] ++ (parts.1 ++ ['%', '>']), [(1, [':']), (2, parts.1)], parts.2⟩
    | rest => (Text.cut? rest ['%', '>']).map fun parts =>
        ⟨['<', '%', '#'] ++ (parts.1 ++ ['%', '>']), [(2, parts.1)], parts.2⟩ := by
  rw [binding, first?_literal_followed]
  congr 1
  funext rest
  rw [first?_optional_followed, first?_group_literal_followed, first?_group_anything_followed (by simp)]
  split
  · next rest =>
    cases hcut : Text.cut? rest ['%', '>'] <;>
      simp [Text.after?, Text.cut?, first?_group_anything_followed, hcut]
  · next hcolon =>
    have hnone : Text.after? rest [':'] = none := Text.after?_eq_none fun u hu => hcolon u hu
    simp [hnone, Function.comp_def]

end Pattern

def Token.blockText? : Token → Option Text
  | .directive body => some body
  | .code _ body => some body
  | .binding expression _ => some expression
  | _ => none

namespace Lexeme

def codeByPattern? (kind : CodeKind) (mark t : Text) : Option Lexeme :=
  ((Pattern.block mark).first? t).map fun m => ⟨.code kind (m.group 1), m.taken⟩

def bindingByPattern? (t : Text) : Option Lexeme :=
  (Pattern.binding.first? t).map fun m => ⟨.binding (m.group 2) (m.group? 1).isSome, m.taken⟩

/-- The block that starts a text, by the patterns in the order in which they are tried. -/
def byPatterns (t : Text) : Lexeme :=
  if ['<', '%', '-', '-'].isPrefixOf t then
    match Pattern.comment.first? t with
    | some m => ⟨.comment, m.taken⟩
    | none => ⟨.unterminatedComment, t⟩
  else if ['<', '%', '@'].isPrefixOf t then
    let unterminated : Lexeme := ⟨.unterminatedDirective,
      ((Text.cut? (t.drop 3) ['<', '%', '@']).map fun parts => t.take (3 + parts.1.length)).getD t⟩
    match (Pattern.block ['<', '%', '@']).first? t with
    | some m =>
      if (m.group 1).holds ['<', '%', '@'] then unterminated
      else ⟨.directive (m.group 1), m.taken⟩
    | none => unterminated
  else
    (bindingByPattern? t).or (codeByPattern? .expression ['<', '%', '='] t)
      |>.or (codeByPattern? .encode ['<', '%', ':'] t)
      |>.or (codeByPattern? .render ['<', '%'] t)
      |>.getD ⟨.unterminatedCode, t⟩

/-- The token of a block whose terminator stands at `stop`, by the character behind the `<%`. -/
def tokenUpTo (t : Text) (stop : Nat) : Token :=
  match t[2]? with
  | some '#' =>
    if t[3]? = some ':' then .binding (t.extract 4 stop) true else .binding (t.extract 3 stop) false
  | some '=' => .code .expression (t.extract 3 stop)
  | some ':' => .code .encode (t.extract 3 stop)
  | _ => .code .render (t.extract 2 stop)

/-- The block that starts a text, by its first terminator; places count the characters of the text. -/
def firstTerminator (t : Text) : Lexeme :=
  if ['<', '%', '-', '-'].isPrefixOf t then
    match t.firstAt? ['-', '-', '%', '>'] 4 with
    | some stop => ⟨.comment, t.take (stop + 4)⟩
    | none => ⟨.unterminatedComment, t⟩
  else if ['<', '%', '@'].isPrefixOf t then
    let next := t.firstAt? ['<', '%', '@'] 3
    let unterminated : Lexeme := ⟨.unterminatedDirective, (next.map t.take).getD t⟩
    match t.firstAt? ['%', '>'] 3 with
    | some stop =>
      if next.any (· < stop) then unterminated
      else ⟨.directive (t.extract 3 stop), t.take (stop + 2)⟩
    | none => unterminated
  else
    match t.firstAt? ['%', '>'] 2 with
    | some stop => ⟨tokenUpTo t stop, t.take (stop + 2)⟩
    | none => ⟨.unterminatedCode, t⟩

/-- Patterns and terminators tell the same three sorts of blocks apart as the reader does. -/
theorem isPrefixOf_mark {u : Text} (hcomment : ∀ rest, u ≠ '-' :: '-' :: rest)
    (hdirective : ∀ rest, u ≠ '@' :: rest) :
    ['<', '%', '-', '-'].isPrefixOf ('<' :: '%' :: u) = false ∧
      ['<', '%', '@'].isPrefixOf ('<' :: '%' :: u) = false := by
  simp only [Text.isPrefixOf_eq, Option.isSome_eq_false_iff, Option.isNone_iff_eq_none]
  constructor
  · exact Text.after?_eq_none fun rest h => hcomment rest (by simpa using h)
  · exact Text.after?_eq_none fun rest h => hdirective rest (by simpa using h)

theorem codeByPattern?_eq (kind : CodeKind) (mark t : Text) :
    codeByPattern? kind mark t = (t.after? mark).bind fun rest =>
      (rest.cut? ['%', '>']).map fun parts =>
        ⟨.code kind parts.1, mark ++ (parts.1 ++ ['%', '>'])⟩ := by
  simp [codeByPattern?, Pattern.first?_block, Option.map_bind, Function.comp_def, Pattern.Match.group,
    Pattern.Match.group?]

theorem bindingByPattern?_colon (rest : Text) :
    bindingByPattern? ('<' :: '%' :: '#' :: ':' :: rest) = (rest.cut? ['%', '>']).map fun parts =>
      ⟨.binding parts.1 true, ['<', '%', '#', ':'] ++ (parts.1 ++ ['%', '>'])⟩ := by
  simp [bindingByPattern?, Pattern.first?_binding, Text.after?, Function.comp_def,
    Pattern.Match.group, Pattern.Match.group?, List.lookup_cons]

theorem bindingByPattern?_sharp {rest : Text} (hcolon : ∀ v, rest ≠ ':' :: v) :
    bindingByPattern? ('<' :: '%' :: '#' :: rest) = (rest.cut? ['%', '>']).map fun parts =>
      ⟨.binding parts.1 false, ['<', '%', '#'] ++ (parts.1 ++ ['%', '>'])⟩ := by
  simp [bindingByPattern?, Pattern.first?_binding, Text.after?, Function.comp_def,
    Pattern.Match.group, Pattern.Match.group?, List.lookup_cons]

theorem bindingByPattern?_eq_none {c : Char} (hsharp : c ≠ '#') (rest : Text) :
    bindingByPattern? ('<' :: '%' :: c :: rest) = none := by
  simp [bindingByPattern?, Pattern.first?_binding, Text.after?, hsharp]

theorem codeToken_sharp {front : Text} (h : ∀ c ∈ front.head?, c ≠ ':') :
    codeToken ('#' :: front) = .binding front false := by
  rcases front with _ | ⟨c, front⟩
  · rfl
  · have hc : c ≠ ':' := h c rfl
    simp [codeToken, hc]

theorem codeToken_render {front : Text} (h : ∀ c ∈ front.head?, c ≠ '#' ∧ c ≠ '=' ∧ c ≠ ':') :
    codeToken front = .code .render front := by
  rcases front with _ | ⟨c, front⟩
  · rfl
  · obtain ⟨hsharp, hequals, hcolon⟩ := h c rfl
    simp [codeToken, hsharp, hequals, hcolon]

/-- Of the patterns for bindings and code the first that can match gives the token by its mark. -/
theorem byPatterns_code {u : Text} (hcomment : ∀ rest, u ≠ '-' :: '-' :: rest)
    (hdirective : ∀ rest, u ≠ '@' :: rest) :
    byPatterns ('<' :: '%' :: u) = ((u.cut? ['%', '>']).map fun parts =>
      ⟨codeToken parts.1, ['<', '%'] ++ parts.1 ++ ['%', '>']⟩).getD
        ⟨.unterminatedCode, ['<', '%'] ++ u⟩ := by
  obtain ⟨h1, h2⟩ := isPrefixOf_mark hcomment hdirective
  simp only [byPatterns, h1, h2, codeByPattern?_eq]
  rcases u with _ | ⟨c, v⟩
  · rfl
  by_cases hsharp : c = '#'
  · subst hsharp
    by_cases hcolon : ∃ w, v = ':' :: w
    · obtain ⟨w, rfl⟩ := hcolon
      rw [bindingByPattern?_colon, Text.cut?_close_cons (by decide), Text.cut?_close_cons (by decide)]
      cases hcut : Text.cut? w ['%', '>'] <;> simp [Text.after?, Text.cut?_close_cons, hcut, codeToken]
    · rw [bindingByPattern?_sharp fun w hw => hcolon ⟨w, hw⟩, Text.cut?_close_cons (by decide)]
      cases hcut : Text.cut? v ['%', '>'] with
      | none => simp [Text.after?, Text.cut?_close_cons, hcut]
      | some parts =>
        have htoken : codeToken ('#' :: parts.1) = .binding parts.1 false := by
          refine codeToken_sharp fun d hd => ?_
          rintro rfl
          exact hcolon (List.head?_eq_some_iff.1 (Text.head?_of_cut? hcut ':' hd))
        simp [htoken]
  rw [bindingByPattern?_eq_none hsharp]
  by_cases hequals : c = '='
  · subst hequals
    rw [Text.cut?_close_cons (by decide)]
    cases hcut : Text.cut? v ['%', '>'] <;> simp [Text.after?, Text.cut?_close_cons, hcut, codeToken]
  by_cases hcolon : c = ':'
  · subst hcolon
    rw [Text.cut?_close_cons (by decide)]
    cases hcut : Text.cut? v ['%', '>'] <;> simp [Text.after?, Text.cut?_close_cons, hcut, codeToken]
  cases hcut : Text.cut? (c :: v) ['%', '>'] with
  | none => simp [Text.after?, hequals, hcolon, hcut]
  | some parts =>
    have htoken : codeToken parts.1 = .code .render parts.1 := by
      refine codeToken_render fun d hd => ?_
      have hd := Text.head?_of_cut? hcut d hd
      simp only [List.head?_cons, Option.some.injEq] at hd
      exact hd ▸ ⟨hsharp, hequals, hcolon⟩
    simp [Text.after?, hequals, hcolon, hcut, htoken]

/-- A directive without its end goes up to the next one, or on to the end. -/
theorem take_next (body : Text) :
    ((body.cut? ['<', '%', '@']).map fun parts =>
      ('<' :: '%' :: '@' :: body).take (3 + parts.1.length)).getD ('<' :: '%' :: '@' :: body) =
      ['<', '%', '@'] ++ ((body.cut? ['<', '%', '@']).map Prod.fst).getD body :=
  Text.take_cut? ['<', '%', '@'] body ['<', '%', '@']

theorem byPatterns_comment (body : Text) :
    byPatterns ('<' :: '%' :: '-' :: '-' :: body) = scanBlock ('-' :: '-' :: body) := by
  simp only [byPatterns, scanBlock, Pattern.first?_comment]
  cases hcut : Text.cut? body ['-', '-', '%', '>'] <;> simp [Text.after?, hcut]

theorem byPatterns_directive (body : Text) :
    byPatterns ('<' :: '%' :: '@' :: body) = scanBlock ('@' :: body) := by
  have hdrop : ('<' :: '%' :: '@' :: body).drop 3 = body := rfl
  simp only [byPatterns, scanBlock, Pattern.first?_block, hdrop, take_next]
  cases hcut : Text.cut? body ['%', '>'] <;>
    simp [Text.after?, hcut, Pattern.Match.group, Pattern.Match.group?]

/-- The character behind the `<%` tells the token, in the block and in its body. -/
theorem tokenUpTo_eq (body back : Text) :
    tokenUpTo ('<' :: '%' :: (body ++ (['%', '>'] ++ back))) (2 + body.length) = codeToken body := by
  unfold codeToken
  split
  · next expression =>
    simp [tokenUpTo, List.extract_eq_take_drop,
      show 2 + (expression.length + 1 + 1) - 4 = expression.length by omega]
  · next expression hcolon =>
    rcases expression with _ | ⟨c, expression⟩
    · simp [tokenUpTo, List.extract_eq_take_drop]
    · have hc : c ≠ ':' := by
        rintro rfl
        exact hcolon _ rfl
      simp [tokenUpTo, List.extract_eq_take_drop, hc,
        show 2 + (expression.length + 1 + 1) - 3 = expression.length + 1 by omega]
  · next code =>
    simp [tokenUpTo, List.extract_eq_take_drop, show 2 + (code.length + 1) - 3 = code.length by omega]
  · next code =>
    simp [tokenUpTo, List.extract_eq_take_drop, show 2 + (code.length + 1) - 3 = code.length by omega]
  · next hencode hbinding hexpression hcode =>
    rcases body with _ | ⟨c, body⟩
    · simp [tokenUpTo, List.extract_eq_take_drop]
    · have hsharp : c ≠ '#' := by
        rintro rfl
        exact hbinding _ rfl
      have hequals : c ≠ '=' := by
        rintro rfl
        exact hexpression _ rfl
      have hcolon : c ≠ ':' := by
        rintro rfl
        exact hcode _ rfl
      simp [tokenUpTo, List.extract_eq_take_drop, hsharp, hequals, hcolon]

theorem firstTerminator_comment (body : Text) :
    firstTerminator ('<' :: '%' :: '-' :: '-' :: body) = scanBlock ('-' :: '-' :: body) := by
  have hfirst : Text.firstAt? ('<' :: '%' :: '-' :: '-' :: body) ['-', '-', '%', '>'] 4 =
      (Text.cut? body ['-', '-', '%', '>']).map fun parts => 4 + parts.1.length :=
    Text.firstAt?_append ['<', '%', '-', '-'] body _
  simp only [firstTerminator, scanBlock, hfirst]
  rcases hcut : Text.cut? body ['-', '-', '%', '>'] with _ | ⟨inside, back⟩
  · simp
  · have htake : ('<' :: '%' :: '-' :: '-' :: body).take (4 + inside.length + 4) =
        ['<', '%', '-', '-'] ++ (inside ++ ['-', '-', '%', '>']) :=
      Text.take_through hcut ['<', '%', '-', '-']
    simp [htake]

theorem firstTerminator_directive (body : Text) :
    firstTerminator ('<' :: '%' :: '@' :: body) = scanBlock ('@' :: body) := by
  have hnext : Text.firstAt? ('<' :: '%' :: '@' :: body) ['<', '%', '@'] 3 =
      (Text.cut? body ['<', '%', '@']).map fun parts => 3 + parts.1.length :=
    Text.firstAt?_append ['<', '%', '@'] body _
  have hfirst : Text.firstAt? ('<' :: '%' :: '@' :: body) ['%', '>'] 3 =
      (Text.cut? body ['%', '>']).map fun parts => 3 + parts.1.length :=
    Text.firstAt?_append ['<', '%', '@'] body _
  simp only [firstTerminator, scanBlock, hnext, hfirst, Option.map_map, Function.comp_def, take_next]
  rcases hcut : Text.cut? body ['%', '>'] with _ | ⟨inside, back⟩
  · simp
  · have htake : ('<' :: '%' :: '@' :: body).take (3 + inside.length + 2) =
        ['<', '%', '@'] ++ (inside ++ ['%', '>']) := Text.take_through hcut ['<', '%', '@']
    have hextract : ('<' :: '%' :: '@' :: body).extract 3 (3 + inside.length) = inside :=
      Text.extract_between hcut ['<', '%', '@']
    simp [htake, hextract, Text.any_lt_firstAt? hcut 3]

theorem firstTerminator_code {u : Text} (hcomment : ∀ rest, u ≠ '-' :: '-' :: rest)
    (hdirective : ∀ rest, u ≠ '@' :: rest) :
    firstTerminator ('<' :: '%' :: u) = ((u.cut? ['%', '>']).map fun parts =>
      ⟨codeToken parts.1, ['<', '%'] ++ parts.1 ++ ['%', '>']⟩).getD
        ⟨.unterminatedCode, ['<', '%'] ++ u⟩ := by
  obtain ⟨h1, h2⟩ := isPrefixOf_mark hcomment hdirective
  have hfirst : Text.firstAt? ('<' :: '%' :: u) ['%', '>'] 2 =
      (u.cut? ['%', '>']).map fun parts => 2 + parts.1.length :=
    Text.firstAt?_append ['<', '%'] u _
  simp only [firstTerminator, h1, h2, hfirst]
  rcases hcut : u.cut? ['%', '>'] with _ | ⟨body, back⟩
  · simp
  · have htake : ('<' :: '%' :: u).take (2 + body.length + 2) = ['<', '%'] ++ (body ++ ['%', '>']) :=
      Text.take_through hcut ['<', '%']
    have htoken : tokenUpTo ('<' :: '%' :: u) (2 + body.length) = codeToken body := by
      rw [Text.cut?_eq_some hcut, tokenUpTo_eq]
    simp [htake, htoken]

/-- Comments, directives and code apart, both specifications read a block as the reader does. -/
theorem scanBlock_eq (u : Text) :
    scanBlock u = byPatterns ('<' :: '%' :: u) ∧ scanBlock u = firstTerminator ('<' :: '%' :: u) := by
  by_cases hcomment : ∃ body, u = '-' :: '-' :: body
  · obtain ⟨body, rfl⟩ := hcomment
    exact ⟨(byPatterns_comment body).symm, (firstTerminator_comment body).symm⟩
  by_cases hdirective : ∃ body, u = '@' :: body
  · obtain ⟨body, rfl⟩ := hdirective
    exact ⟨(byPatterns_directive body).symm, (firstTerminator_directive body).symm⟩
  have hcomment : ∀ rest, u ≠ '-' :: '-' :: rest := fun rest h => hcomment ⟨rest, h⟩
  have hdirective : ∀ rest, u ≠ '@' :: rest := fun rest h => hdirective ⟨rest, h⟩
  rw [scanBlock_other hcomment hdirective]
  exact ⟨(byPatterns_code hcomment hdirective).symm, (firstTerminator_code hcomment hdirective).symm⟩

theorem holds_codeToken {body text : Text} (hbody : body.holds ['%', '>'] = false)
    (h : (codeToken body).blockText? = some text) : text.holds ['%', '>'] = false := by
  unfold codeToken at h
  split at h
  · cases h
    exact (Text.holds_cons_eq_false (Text.holds_cons_eq_false hbody).2).2
  · cases h
    exact (Text.holds_cons_eq_false hbody).2
  · cases h
    exact (Text.holds_cons_eq_false hbody).2
  · cases h
    exact (Text.holds_cons_eq_false hbody).2
  · cases h
    exact hbody

theorem holds_scanBlock {u text : Text} (h : (scanBlock u).token.blockText? = some text) :
    text.holds ['%', '>'] = false := by
  unfold scanBlock at h
  split at h
  · split at h <;> cases h
  · dsimp only at h
    split at h
    · next hcut =>
      split at h
      · cases h
      · cases h
        exact Text.holds_of_cut? hcut
    · cases h
  · split at h
    · next hcut => exact holds_codeToken (Text.holds_of_cut? hcut) h
    · cases h

/-- A block is what the patterns find in their order, and what a scanner for first terminators finds. So
no body, code or expression holds a `%>`. -/
theorem scan_eq_firstTerminator (u : Text) :
    scan ('<' :: '%' :: u) = byPatterns ('<' :: '%' :: u) ∧
      scan ('<' :: '%' :: u) = firstTerminator ('<' :: '%' :: u) ∧
      ∀ text, (scan ('<' :: '%' :: u)).token.blockText? = some text → text.holds ['%', '>'] = false := by
  have hscan : scan ('<' :: '%' :: u) = scanBlock u := rfl
  rw [hscan]
  exact ⟨(scanBlock_eq u).1, (scanBlock_eq u).2, fun _ => holds_scanBlock⟩

/-- The dashes that open a comment do not close it too. -/
example : firstTerminator ['<', '%', '-', '-', '%', '>'] =
    ⟨.unterminatedComment, ['<', '%', '-', '-', '%', '>']⟩ := by
  decide

end Lexeme

end ServerPages
