import ServerPages.Markup.Tree
import ServerPages.Proofs.Slice

/-! Whatever is read at the start of a text is a front part of it: every lexeme, the raw text of an
element, and so the text each step of the builder reads. -/

namespace ServerPages

namespace Tag

theorem isPrefix_prefixedName? {t name : Text} (h : prefixedName? t = some name) : name <+: t := by
  simp only [prefixedName?] at h
  split at h
  · next c scope rest hscope hrest =>
    split at h
    · simp at h
    · simp only [Option.some.injEq] at h
      subst h
      have ht : t = c :: scope ++ ':' :: rest := by
        rw [← hscope, ← hrest, List.takeWhile_append_dropWhile]
      rw [ht, List.prefix_append_right_inj, List.prefix_cons_inj]
      exact List.takeWhile_prefix _
  · simp at h

theorem isPrefix_runatName? {wholeWord : Bool} {previous : Char} {t name : Text}
    (h : runatName? wholeWord previous t = some name) : name <+: t := by
  simp only [runatName?] at h
  split at h
  · split at h
    · simp at h
    · simp only [Option.some.injEq] at h
      subst h
      exact (List.take_prefix _ _).trans (List.takeWhile_prefix _)
  · simp at h

end Tag

namespace Lexeme

theorem isPrefix_ofText (c : Char) (t : Text) : (ofText c t).text <+: c :: t := by
  rw [ofText, List.prefix_cons_inj]
  exact List.takeWhile_prefix _

theorem isPrefix_scanBlock (t : Text) : (scanBlock t).text <+: '<' :: '%' :: t := by
  have hopen : ∀ body : Text, ['<', '%', '@'] ++
      ((body.cut? ['<', '%', '@']).map Prod.fst).getD body <+: '<' :: '%' :: '@' :: body := by
    intro body
    cases hcut : body.cut? ['<', '%', '@'] with
    | none => simp
    | some parts => simp [Text.cut?_eq_some (show _ = some (parts.1, parts.2) from hcut)]
  unfold scanBlock
  split
  · split
    · next hcut => simp [Text.cut?_eq_some hcut]
    · simp
  · split
    · next hcut =>
      split
      · exact hopen _
      · simp [Text.cut?_eq_some hcut]
    · exact hopen _
  · split
    · next hcut => simp [Text.cut?_eq_some hcut]
    · simp

theorem isPrefix_scanClosing (t : Text) : (scanClosing t).text <+: '<' :: '/' :: t := by
  unfold scanClosing
  split
  · simpa using Text.isPrefix_upTo _ _
  · simp only
    split
    · next back _ hclose =>
      have ht : Tag.inside t ++ t.drop (Tag.inside t).length = t :=
        List.prefix_iff_eq_append.1 (List.takeWhile_prefix _)
      rw [hclose] at ht
      refine ⟨back, ?_⟩
      rw [List.append_assoc, List.append_assoc]
      exact congrArg (['<', '/'] ++ ·) ht
    · exact isPrefix_ofText _ _

theorem isPrefix_scanOpening (t : Text) : (scanOpening t).text <+: '<' :: t := by
  unfold scanOpening
  simp only
  split
  · rw [List.prefix_cons_inj]
    exact Text.isPrefix_upTo _ _
  · split
    · next name hname =>
      rw [List.prefix_cons_inj]
      rcases Option.or_eq_some_iff.1 hname with h | ⟨-, h⟩
      · exact Tag.isPrefix_prefixedName? h
      · exact (Tag.isPrefix_runatName? h).trans (List.takeWhile_prefix _)
    · exact isPrefix_ofText _ _

/-- What is neither a comment nor a directive is code up to its first terminator. -/
theorem scanBlock_other {t : Text} (hcomment : ∀ body, t ≠ '-' :: '-' :: body)
    (hdirective : ∀ body, t ≠ '@' :: body) :
    scanBlock t = ((t.cut? ['%', '>']).map fun parts =>
      ⟨codeToken parts.1, ['<', '%'] ++ parts.1 ++ ['%', '>']⟩).getD
        ⟨.unterminatedCode, ['<', '%'] ++ t⟩ := by
  unfold scanBlock
  split
  · exact absurd rfl (hcomment _)
  · exact absurd rfl (hdirective _)
  · cases t.cut? ['%', '>'] <;> rfl

/-- The first characters decide how a text is read. -/
theorem scan_cases {t : Text} (h : t ≠ []) :
    (∃ body, t = '<' :: '%' :: body ∧ scan t = scanBlock body) ∨
      (∃ rest, t = '<' :: '/' :: rest ∧ scan t = scanClosing rest) ∨
      (∃ rest, t = '<' :: rest ∧ scan t = scanOpening rest) ∨
      ∃ c rest, c ≠ '<' ∧ t = c :: rest ∧ scan t = ofText c rest := by
  cases t with
  | nil => exact absurd rfl h
  | cons c t =>
    simp only [scan]
    split
    · next hc =>
      subst hc
      split
      · exact .inl ⟨_, rfl, rfl⟩
      · exact .inr (.inl ⟨_, rfl, rfl⟩)
      · exact .inr (.inr (.inl ⟨t, rfl, rfl⟩))
    · next hc => exact .inr (.inr (.inr ⟨c, t, hc, rfl, rfl⟩))

/-- A lexeme is a front part of the text it is read from. -/
theorem isPrefix_text_scan (t : Text) : (scan t).text <+: t := by
  unfold scan
  split
  · exact List.prefix_refl _
  · split
    · next hc =>
      subst hc
      split
      · exact isPrefix_scanBlock _
      · exact isPrefix_scanClosing _
      · exact isPrefix_scanOpening _
    · exact isPrefix_ofText _ _

end Lexeme

theorem isPrefix_rawText (name : Text) (allowCode : Bool) (t : Text) :
    rawText name allowCode t <+: t := by
  induction t with
  | nil => exact List.prefix_refl _
  | cons c t ih =>
    simp only [rawText]
    split
    all_goals
      split
      · exact List.nil_prefix
      · rwa [List.prefix_cons_inj]

namespace Builder

theorem isPrefix_rawRun (b : Builder) (t : Text) : b.rawRun t <+: t := by
  unfold rawRun
  split
  · split
    · exact isPrefix_rawText _ _ _
    · exact List.nil_prefix
  · exact List.nil_prefix

theorem isPrefix_beforeCode? {t front : Text} (h : beforeCode? t = some front) : front <+: t := by
  cases t with
  | nil => simp [beforeCode?] at h
  | cons c t =>
    obtain ⟨⟨before, after⟩, hcut, rfl⟩ := Option.map_eq_some_iff.1 h
    rw [Text.cut?_eq_some hcut]
    simp

end Builder

end ServerPages
