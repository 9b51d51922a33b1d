import ServerPages.Proofs.Lowered
import ServerPages.Proofs.Scan

/-! Lexemes of a page in lower case: they are cut where those of the page are, and each is the page's own
in lower case. Raw text ends at the same place. -/

namespace ServerPages

open Text (isMark)

namespace Token

def lower : Token → Token
  | .directive body => .directive body.lower
  | .code kind body => .code kind body.lower
  | .binding expression encode => .binding expression.lower encode
  | .openTag name attributes selfClosing => .openTag name.lower attributes.lower selfClosing
  | .closeTag name => .closeTag name.lower
  | .malformedServerTag name => .malformedServerTag name.lower
  | .runatOnClosingTag name => .runatOnClosingTag name.lower
  | token => token

theorem innerOffset_lower (offset : Nat) (token : Token) :
    token.lower.innerOffset offset = token.innerOffset offset := by
  cases token <;> simp [lower, innerOffset]

end Token

namespace Lexeme

def lower (l : Lexeme) : Lexeme := ⟨l.token.lower, l.text.lower⟩

theorem ofText_lower (c : Char) (t : Text) : ofText c.toLower t.lower = (ofText c t).lower := by
  simp [ofText, lower, Token.lower, Text.takeWhile_lower (Text.blind_ne (m := '<') (by decide))]

theorem codeToken_lower (t : Text) : codeToken t.lower = (codeToken t).lower := by
  cases t with
  | nil => rfl
  | cons c t =>
    by_cases hbinding : c = '#'
    · subst hbinding
      cases t with
      | nil => rfl
      | cons d t =>
        by_cases hd : d = ':'
        · subst hd
          rfl
        · simp [codeToken, Token.lower, hd, Text.toLower_ne (m := ':') (by decide) hd]
    by_cases hexpression : c = '='
    · subst hexpression
      rfl
    by_cases hencode : c = ':'
    · subst hencode
      rfl
    simp [codeToken, Token.lower, hbinding, hexpression, hencode,
      Text.toLower_ne (m := '#') (by decide) hbinding,
      Text.toLower_ne (m := '=') (by decide) hexpression,
      Text.toLower_ne (m := ':') (by decide) hencode]

theorem scanBlock_comment_lower (body : Text) :
    scanBlock ('-' :: '-' :: body.lower) = (scanBlock ('-' :: '-' :: body)).lower := by
  simp only [scanBlock, Text.cut?_lower (m := ['-', '-', '%', '>']) (by decide)]
  cases body.cut? ['-', '-', '%', '>'] with
  | some parts => simp [lower, Token.lower]
  | none => simp [lower, Token.lower]

theorem scanBlock_directive_lower (body : Text) :
    scanBlock ('@' :: body.lower) = (scanBlock ('@' :: body)).lower := by
  have hopen : (['<', '%', '@'] : Text).all isMark = true := by decide
  have hend : ((body.lower.cut? ['<', '%', '@']).map Prod.fst).getD body.lower =
      Text.lower (((body.cut? ['<', '%', '@']).map Prod.fst).getD body) := by
    rw [Text.cut?_lower hopen]
    cases body.cut? ['<', '%', '@'] <;> rfl
  simp only [scanBlock, hend, Text.cut?_lower (m := ['%', '>']) (by decide)]
  cases body.cut? ['%', '>'] with
  | none => simp [lower, Token.lower]
  | some parts =>
    simp only [Option.map_some, Prod.map, Text.holds_lower hopen]
    split <;> simp [lower, Token.lower]

theorem scanBlock_code_lower {t : Text} (hcomment : ∀ body, t ≠ '-' :: '-' :: body)
    (hdirective : ∀ body, t ≠ '@' :: body) : scanBlock t.lower = (scanBlock t).lower := by
  rw [scanBlock_other hcomment hdirective, scanBlock_other, Text.cut?_lower (by decide)]
  · cases t.cut? ['%', '>'] with
    | some parts => simp [lower, codeToken_lower]
    | none => simp [lower, Token.lower]
  · intro body h
    obtain ⟨rest, rfl, hrest⟩ := (Text.lower_eq_cons (by decide)).1 h
    obtain ⟨_, rfl, -⟩ := (Text.lower_eq_cons (by decide)).1 hrest.symm
    exact hcomment _ rfl
  · intro body h
    obtain ⟨_, rfl, -⟩ := (Text.lower_eq_cons (by decide)).1 h
    exact hdirective _ rfl

theorem scanBlock_lower (t : Text) : scanBlock t.lower = (scanBlock t).lower := by
  by_cases hcomment : ∃ body, t = '-' :: '-' :: body
  · obtain ⟨body, rfl⟩ := hcomment
    exact scanBlock_comment_lower body
  by_cases hdirective : ∃ body, t = '@' :: body
  · obtain ⟨body, rfl⟩ := hdirective
    exact scanBlock_directive_lower body
  exact scanBlock_code_lower (fun body h => hcomment ⟨body, h⟩) fun body h => hdirective ⟨body, h⟩

theorem scanClosing_lower (t : Text) : scanClosing t.lower = (scanClosing t).lower := by
  simp only [scanClosing, Tag.closing?_lower, Tag.inside_lower, Text.length_lower, Text.drop_lower,
    Tag.runatName?_lower false (p := '/') (by decide)]
  cases Tag.closing? t with
  | some parts => simp [lower, Token.lower]
  | none =>
    have htext : ofText '<' ('/' :: t.lower) = (ofText '<' ('/' :: t)).lower :=
      ofText_lower '<' ('/' :: t)
    simp only [Option.map_none, htext]
    cases Tag.runatName? false '/' (Tag.inside t) with
    | none => rfl
    | some name =>
      cases t.drop (Tag.inside t).length with
      | nil => rfl
      | cons c rest =>
        by_cases hc : c = '>'
        · subst hc
          simp [lower, Token.lower]
        · simp [hc, Text.toLower_ne (m := '>') (by decide) hc]

/-- What a `<` gives that starts no complete tag. -/
def incomplete (t : Text) : Lexeme :=
  match (Tag.prefixedName? t).or (Tag.runatName? true '<' (Tag.inside t)) with
  | some name => ⟨.malformedServerTag name, '<' :: name⟩
  | none => ofText '<' t

theorem incomplete_lower (t : Text) : incomplete t.lower = (incomplete t).lower := by
  rw [incomplete, incomplete, Tag.inside_lower, Tag.runatName?_lower true (by decide),
    Tag.prefixedName?_lower, ← Option.map_or]
  cases (Tag.prefixedName? t).or (Tag.runatName? true '<' (Tag.inside t)) with
  | some name => rfl
  | none => exact ofText_lower '<' t

theorem scanOpening_eq (t : Text) : scanOpening t =
    match t.takeWhile Tag.isNameChar, Tag.ending? (t.dropWhile Tag.isNameChar) with
    | c :: name, some ending =>
      ⟨.openTag (c :: name) (Text.upTo (t.dropWhile Tag.isNameChar) ending.attributesRest)
        ending.selfClosing, '<' :: t.upTo ending.rest⟩
    | _, _ => incomplete t := by
  unfold scanOpening
  dsimp only
  cases t.takeWhile Tag.isNameChar with
  | nil => rfl
  | cons c name => cases Tag.ending? (t.dropWhile Tag.isNameChar) <;> rfl

theorem scanOpening_lower (t : Text) : scanOpening t.lower = (scanOpening t).lower := by
  simp only [scanOpening_eq, incomplete_lower, Text.takeWhile_lower Tag.blind_isNameChar,
    Text.dropWhile_lower Tag.blind_isNameChar, Tag.ending?_lower]
  cases t.takeWhile Tag.isNameChar with
  | nil => rfl
  | cons c name =>
    cases Tag.ending? (t.dropWhile Tag.isNameChar) with
    | none => rfl
    | some ending => simp [lower, Token.lower, Tag.Ending.lower]

theorem scan_lower (t : Text) : scan t.lower = (scan t).lower := by
  cases t with
  | nil => rfl
  | cons c t =>
    by_cases hc : c = '<'
    · subst hc
      cases t with
      | nil => exact scanOpening_lower []
      | cons d t =>
        by_cases hblock : d = '%'
        · subst hblock
          exact scanBlock_lower t
        by_cases hclosing : d = '/'
        · subst hclosing
          exact scanClosing_lower t
        have hopening := scanOpening_lower (d :: t)
        simpa [scan, hblock, hclosing, Text.toLower_ne (m := '%') (by decide) hblock,
          Text.toLower_ne (m := '/') (by decide) hclosing] using hopening
    · have hlower := Text.toLower_ne (m := '<') (by decide) hc
      simpa [scan, hc, hlower] using ofText_lower c t

end Lexeme

/-- Whether raw text inside an element named `name` ends in front of the text. -/
def endsRaw (name : Text) (allowCode : Bool) (t : Text) : Bool :=
  (t.after? ['<', '%']).isSome && allowCode ||
    ((t.after? ['<', '/']).bind Tag.closing?).any (·.1.same name)

theorem rawText_eq (name : Text) (allowCode : Bool) (c : Char) (t : Text) :
    rawText name allowCode (c :: t) =
      if endsRaw name allowCode (c :: t) then [] else c :: rawText name allowCode t := by
  simp only [rawText]
  congr 2
  split
  · simp [endsRaw, Text.after?]
  · next u =>
    cases hclosing : Tag.closing? u <;> simp [endsRaw, Text.after?, hclosing]
  · next hblock hclosing =>
    rw [endsRaw, Text.after?_eq_none, Text.after?_eq_none]
    · rfl
    · rintro rest ⟨⟩
      exact hclosing _ rfl rfl
    · rintro rest ⟨⟩
      exact hblock _ rfl rfl

theorem endsRaw_lower (name : Text) (allowCode : Bool) (t : Text) :
    endsRaw name.lower allowCode t.lower = endsRaw name allowCode t := by
  have hclosing : ((t.lower.after? ['<', '/']).bind Tag.closing?) =
      ((t.after? ['<', '/']).bind Tag.closing?).map (Prod.map Text.lower Text.lower) := by
    rw [Text.after?_lower (by decide)]
    cases t.after? ['<', '/'] with
    | none => rfl
    | some rest => exact Tag.closing?_lower rest
  rw [endsRaw, hclosing, Text.after?_lower (by decide), Option.isSome_map, Option.any_map, endsRaw]
  simp only [Prod.map_fst, Text.same_lower_left, Text.same_lower_right]

theorem rawText_lower (name : Text) (allowCode : Bool) (t : Text) :
    rawText name.lower allowCode t.lower = (rawText name allowCode t).lower := by
  induction t with
  | nil => rfl
  | cons c t ih =>
    rw [Text.lower_cons, rawText_eq, rawText_eq, ← Text.lower_cons, endsRaw_lower, ih]
    split <;> rfl

theorem strayEnd?_lower (t : Text) : strayEnd? t.lower = strayEnd? t := by
  rw [strayEnd?, strayEnd?, Text.cut?_lower (by decide), Option.map_map]
  congr 1
  funext parts
  exact Text.byteLength_lower parts.1

end ServerPages
