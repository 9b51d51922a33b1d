import ServerPages.Markup.Tag

/-! Lexemes: the constructs a page is cut into. Server blocks `<% … %>` come first and end at their
first terminator, then closing and opening tags, then what starts like a server tag but is not
complete, and plain text up to the next `<`. -/

namespace ServerPages

inductive CodeKind where
  /-- `<% … %>` -/
  | render
  /-- `<%= … %>` -/
  | expression
  /-- `<%: … %>` -/
  | encode
  deriving DecidableEq, Repr

inductive Token where
  | comment
  | directive (body : Text)
  | code (kind : CodeKind) (code : Text)
  | binding (expression : Text) (encode : Bool)
  | openTag (name attributes : Text) (selfClosing : Bool)
  | closeTag (name : Text)
  | text
  /-- `<%--` without `--%>` -/
  | unterminatedComment
  /-- `<%@` that meets no `%>` before the next directive -/
  | unterminatedDirective
  /-- `<%` without `%>` -/
  | unterminatedCode
  | malformedServerTag (name : Text)
  | runatOnClosingTag (name : Text)
  deriving DecidableEq, Repr

structure Lexeme where
  token : Token
  text : Text
  deriving DecidableEq, Repr

namespace Lexeme

/-- plain text: one character and all up to the next `<` -/
def ofText (c : Char) (t : Text) : Lexeme := ⟨.text, c :: t.takeWhile (· != '<')⟩

/-- The token of a terminated block, by the characters after `<%`. -/
def codeToken : Text → Token
  | '#' :: ':' :: expression => .binding expression true
  | '#' :: expression => .binding expression false
  | '=' :: code => .code .expression code
  | ':' :: code => .code .encode code
  | code => .code .render code

/-- The block that starts with `<%`, given what follows. -/
def scanBlock (t : Text) : Lexeme :=
  match t with
  | '-' :: '-' :: body =>
    match Text.cut? body ['-', '-', '%', '>'] with
    | some (body, _) => ⟨.comment, ['<', '%', '-', '-'] ++ body ++ ['-', '-', '%', '>']⟩
    | none => ⟨.unterminatedComment, ['<', '%'] ++ t⟩
  | '@' :: body =>
    let unterminated : Lexeme :=
      ⟨.unterminatedDirective,
        ['<', '%', '@'] ++ ((Text.cut? body ['<', '%', '@']).map Prod.fst).getD body⟩
    match Text.cut? body ['%', '>'] with
    | some (body, _) =>
      if Text.holds body ['<', '%', '@'] then unterminated
      else ⟨.directive body, ['<', '%', '@'] ++ body ++ ['%', '>']⟩
    | none => unterminated
  | _ =>
    match t.cut? ['%', '>'] with
    | some (body, _) => ⟨codeToken body, ['<', '%'] ++ body ++ ['%', '>']⟩
    | none => ⟨.unterminatedCode, ['<', '%'] ++ t⟩

def scanClosing (t : Text) : Lexeme :=
  match Tag.closing? t with
  | some (name, rest) => ⟨.closeTag name, ['<', '/'] ++ t.upTo rest⟩
  | none =>
    let inside := Tag.inside t
    match Tag.runatName? false '/' inside, t.drop inside.length with
    | some name, '>' :: _ => ⟨.runatOnClosingTag name, ['<', '/'] ++ inside ++ ['>']⟩
    | _, _ => ofText '<' ('/' :: t)

def scanOpening (t : Text) : Lexeme :=
  let name := t.takeWhile Tag.isNameChar
  let rest := t.dropWhile Tag.isNameChar
  match name, Tag.ending? rest with
  | _ :: _, some ending =>
    ⟨.openTag name (Text.upTo rest ending.attributesRest) ending.selfClosing,
      '<' :: t.upTo ending.rest⟩
  | _, _ =>
    match (Tag.prefixedName? t).or (Tag.runatName? true '<' (Tag.inside t)) with
    | some name => ⟨.malformedServerTag name, '<' :: name⟩
    | none => ofText '<' t

def scan : Text → Lexeme
  | [] => ⟨.text, []⟩
  | c :: t =>
    if c = '<' then
      match t with
      | '%' :: t => scanBlock t
      | '/' :: t => scanClosing t
      | t => scanOpening t
    else ofText c t

/-- Every lexeme of a nonempty text takes up some of it. -/
theorem text_scan_ne_nil {t : Text} (h : t ≠ []) : (scan t).text ≠ [] := by
  cases t with
  | nil => exact absurd rfl h
  | cons c t =>
    have hblock : ∀ u, (scanBlock u).text ≠ [] := by
      intro u
      simp only [scanBlock]
      repeat' split
      all_goals simp
    have hclosing : ∀ u, (scanClosing u).text ≠ [] := by
      intro u
      simp only [scanClosing]
      repeat' split
      all_goals simp [ofText]
    have hopening : ∀ u, (scanOpening u).text ≠ [] := by
      intro u
      simp only [scanOpening]
      repeat' split
      all_goals simp [ofText]
    simp only [scan]
    repeat' split
    · exact hblock _
    · exact hclosing _
    · exact hopening _
    · simp [ofText]

/-- The construct at byte `offset` of a page; none past the end or inside a character. -/
def at? (source : Text) (offset : Nat) : Option Lexeme := (source.dropBytes? offset).map scan

/-- The lexemes of a text, each with its place; they start at `offset`. -/
def all (offset : Nat) (t : Text) : List (Token × Fragment) :=
  if _h : t = [] then []
  else
    let lexeme := scan t
    (lexeme.token, ⟨offset, lexeme.text⟩) ::
      all (offset + lexeme.text.byteLength) (t.drop lexeme.text.length)
termination_by t.length
decreasing_by
  have := List.length_pos_iff.2 (text_scan_ne_nil ‹_›)
  have := List.length_pos_iff.2 ‹¬ t = []›
  simp only [List.length_drop]
  omega

end Lexeme

namespace Token

/-- Where the body of a directive or the attributes of a tag start in a lexeme at `offset`. -/
def innerOffset (offset : Nat) : Token → Nat
  | .openTag name _ _ => offset + 1 + name.byteLength
  | .directive _ => offset + 3
  | _ => offset

end Token

/-- The raw text that starts `t` inside an element named `name`: up to the element's closing tag,
or to a `<%` where code is allowed. -/
def rawText (name : Text) (allowCode : Bool) : Text → Text
  | [] => []
  | c :: t =>
    let stops : Bool :=
      match c, t with
      | '<', '%' :: _ => allowCode
      | '<', '/' :: t => ((Tag.closing? t).map (·.1.same name)).getD false
      | _, _ => false
    if stops then [] else c :: rawText name allowCode t

def rawTextEnd? (source : Text) (offset : Nat) (name : Text) (allowCode : Bool) : Option Nat :=
  (source.dropBytes? offset).map fun t => offset + (rawText name allowCode t).byteLength

def strayEnd? (t : Text) : Option Nat := (t.cut? ['%', '>']).map (·.1.byteLength)

end ServerPages
