import ServerPages.Proofs.OpenTag

/-! How each kind of lexeme is written. Whatever is scanned has its own marks around what it carries, so
the name, the attributes or the body that a token carries stand at known places in its text. -/

namespace ServerPages

namespace Tag

theorem isNameChar_of_isPartChar {c : Char} (h : isPartChar c = true) : isNameChar c = true := by
  simp only [isPartChar, isNameChar, List.contains_cons, List.contains_nil, Bool.or_false,
    Bool.or_eq_true] at h ⊢
  rcases h with h | h | h <;> simp [h]

theorem closing?_eq_some {t name rest : Text} (h : closing? t = some (name, rest)) :
    ∃ blank, t = name ++ (blank ++ '>' :: rest) ∧ name ≠ [] ∧ name.all isNameChar = true ∧
      blank.all Text.isSpace = true := by
  have hsplit := List.takeWhile_append_dropWhile (p := isNameChar) (l := t)
  unfold closing? at h
  split at h
  · next c name' rest' hname hrest =>
    cases h
    refine ⟨(t.dropWhile isNameChar).takeWhile Text.isSpace, ?_, by simp, ?_, List.all_takeWhile⟩
    · rw [← hname, ← hrest, Text.takeWhile_append_trimStart, hsplit]
    · rw [← hname]
      exact List.all_takeWhile
  · cases h

theorem isNameChar_of_prefixedName? {t name : Text} (h : prefixedName? t = some name) :
    name.all isNameChar = true := by
  unfold prefixedName? at h
  split at h
  · next c scope rest hscope hrest =>
    split at h
    · cases h
    · have hparts : ∀ u : Text, (u.takeWhile isPartChar).all isNameChar = true := by
        intro u
        refine List.all_eq_true.2 fun d hd => isNameChar_of_isPartChar ?_
        exact List.all_eq_true.1 List.all_takeWhile d hd
      cases h
      rw [← hscope, List.all_append, List.all_cons, hparts, hparts]
      decide
  · cases h

theorem isNameChar_of_runatName? {wholeWord : Bool} {previous : Char} {t name : Text}
    (h : runatName? wholeWord previous t = some name) : name.all isNameChar = true := by
  unfold runatName? at h
  split at h
  · next last _ =>
    split at h
    · cases h
    · cases h
      refine List.all_eq_true.2 fun c hc => ?_
      exact List.all_eq_true.1 List.all_takeWhile c (List.mem_of_mem_take hc)
  · cases h

end Tag

/-- The text is written the way this kind of lexeme is. -/
def Token.Writes (text : Text) : Token → Prop
  | .comment => ∃ body, text = ['<', '%', '-', '-'] ++ (body ++ ['-', '-', '%', '>'])
  | .directive body => text = ['<', '%', '@'] ++ (body ++ ['%', '>'])
  | .code _ _ | .binding _ _ => ∃ body, text = ['<', '%'] ++ (body ++ ['%', '>'])
  | .openTag name attributes _ => name ≠ [] ∧ name.all Tag.isNameChar = true ∧
    ∃ mark, text = '<' :: (name ++ (attributes ++ mark))
  | .closeTag name => name.all Tag.isNameChar = true ∧
    ∃ blank, blank.all Text.isSpace = true ∧ text = ['<', '/'] ++ (name ++ (blank ++ ['>']))
  | .text => ∃ c rest, text = c :: rest ∧ (∀ d ∈ rest, d ≠ '<') ∧ (c = '<' → rest.head? ≠ some '%')
  | .unterminatedComment | .unterminatedDirective | .unterminatedCode =>
    ∃ rest, text = ['<', '%'] ++ rest
  | .malformedServerTag name => name.all Tag.isNameChar = true ∧ text = '<' :: name
  | .runatOnClosingTag _ => ∃ inside, (∀ c ∈ inside, c ≠ '<') ∧ text = ['<', '/'] ++ (inside ++ ['>'])

namespace Lexeme

theorem writes_ofText {c : Char} {t : Text} (h : c = '<' → t.head? ≠ some '%') :
    (ofText c t).token.Writes (ofText c t).text := by
  refine ⟨c, t.takeWhile (· != '<'), rfl, fun d hd => ?_, fun hc hhead => h hc ?_⟩
  · simpa using List.all_eq_true.1 List.all_takeWhile d hd
  · cases t with
    | nil => cases hhead
    | cons d t =>
      rw [List.takeWhile_cons] at hhead
      split at hhead
      · exact hhead
      · cases hhead

theorem writes_scanBlock (t : Text) : (scanBlock t).token.Writes (scanBlock t).text := by
  have hcode : ∀ body : Text, (codeToken body).Writes (['<', '%'] ++ body ++ ['%', '>']) := by
    intro body
    unfold codeToken
    split <;> exact ⟨_, List.append_assoc _ _ _⟩
  unfold scanBlock
  dsimp only
  split
  · split
    · exact ⟨_, List.append_assoc _ _ _⟩
    · exact ⟨_, rfl⟩
  · split
    · split
      · exact ⟨_, rfl⟩
      · exact List.append_assoc _ _ _
    · exact ⟨_, rfl⟩
  · split
    · exact hcode _
    · exact ⟨_, rfl⟩

theorem writes_scanClosing (t : Text) : (scanClosing t).token.Writes (scanClosing t).text := by
  unfold scanClosing
  split
  · next name rest hclosing =>
    obtain ⟨blank, rfl, -, hname, hblank⟩ := Tag.closing?_eq_some hclosing
    refine ⟨hname, blank, hblank, ?_⟩
    have hsplit : name ++ (blank ++ '>' :: rest) = (name ++ (blank ++ ['>'])) ++ rest := by simp
    rw [hsplit, Text.upTo_append]
  · dsimp only
    split
    · refine ⟨Tag.inside t, fun c hc => ?_, List.append_assoc _ _ _⟩
      have hinside := List.all_eq_true.1 (List.all_takeWhile (l := t)) c hc
      simp only [Bool.and_eq_true, bne_iff_ne] at hinside
      exact hinside.1
    · exact writes_ofText fun _ => by simp

theorem writes_scanOpening {t : Text} (h : t.head? ≠ some '%') :
    (scanOpening t).token.Writes (scanOpening t).text := by
  unfold scanOpening
  dsimp only
  split
  · next c name e hname hending =>
    obtain ⟨front, hfront, -⟩ := Tag.exhausts_of_ending? hending (List.nil_append _).symm
    obtain ⟨blank, -, hmark⟩ := (Tag.completes_of_ending? hending).exists_blank
    rw [← List.append_assoc] at hmark
    have hsplit := List.takeWhile_append_dropWhile (p := Tag.isNameChar) (l := t)
    have ht : t = (t.takeWhile Tag.isNameChar ++ (front ++ (blank ++ e.mark))) ++ e.rest := by
      rw [List.append_assoc, List.append_assoc, ← hmark, ← hfront, hsplit]
    have hread : t.upTo e.rest = t.takeWhile Tag.isNameChar ++ (front ++ (blank ++ e.mark)) :=
      (congrArg (Text.upTo · e.rest) ht).trans (Text.upTo_append _ _)
    refine ⟨by simp [hname], List.all_takeWhile, blank ++ e.mark, ?_⟩
    dsimp only
    rw [hread, hfront, Text.upTo_append]
  · split
    · next name hname =>
      refine ⟨?_, rfl⟩
      rcases Option.or_eq_some_iff.1 hname with hname | ⟨-, hname⟩
      · exact Tag.isNameChar_of_prefixedName? hname
      · exact Tag.isNameChar_of_runatName? hname
    · exact writes_ofText fun _ => h

/-- Whatever is scanned is written as its token is. -/
theorem writes_scan {t : Text} (h : t ≠ []) : (scan t).token.Writes (scan t).text := by
  cases t with
  | nil => exact absurd rfl h
  | cons c t =>
    simp only [scan]
    split
    · split
      · exact writes_scanBlock _
      · exact writes_scanClosing _
      · next hblock _ =>
        refine writes_scanOpening fun hhead => ?_
        cases t with
        | nil => cases hhead
        | cons d t =>
          cases hhead
          exact hblock _ rfl
    · next hc => exact writes_ofText fun hmark => absurd hmark hc

end Lexeme

end ServerPages
