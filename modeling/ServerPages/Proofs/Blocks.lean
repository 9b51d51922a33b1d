import ServerPages.Proofs.Reading
import ServerPages.Proofs.Scan

/-! Terminated blocks are read the same whatever follows them, and so is text in which no markup but
such blocks starts. -/

namespace ServerPages

namespace Text

/-- Where a text is cut does not depend on what follows the mark. -/
theorem cut?_append {t mark front back : Text} (h : t.cut? mark = some (front, back)) (more : Text) :
    (t ++ more).cut? mark = some (front, back ++ more) := by
  induction t generalizing front with
  | nil => simp [cut?] at h
  | cons c t ih =>
    rw [List.cons_append]
    simp only [cut?] at h ⊢
    split at h
    · next rest hafter =>
      simp only [Option.some.injEq, Prod.mk.injEq] at h
      obtain ⟨rfl, rfl⟩ := h
      have hwhole := after?_append_eq_some hafter more
      rw [List.cons_append] at hwhole
      rw [hwhole]
    · next hafter =>
      obtain ⟨⟨front', back'⟩, hcut, hparts⟩ := Option.map_eq_some_iff.1 h
      simp only [Prod.mk.injEq] at hparts
      obtain ⟨rfl, rfl⟩ := hparts
      have hlength := length_of_cut? hcut
      have hnone := after?_append_eq_none hafter (by rw [List.length_cons]; omega) more
      rw [List.cons_append] at hnone
      rw [hnone, ih hcut, Option.map_some]

end Text

namespace Token

def isBlock : Token → Bool
  | .comment | .directive _ | .code _ _ | .binding _ _ => true
  | _ => false

end Token

namespace Lexeme

/-- The text is one terminated block. -/
def IsBlock (t : Text) : Prop := (scan t).token.isBlock = true ∧ (scan t).text = t

variable {t : Text}

theorem scanBlock_code {body front back : Text} (hcomment : ∀ rest, body ≠ '-' :: '-' :: rest)
    (hdirective : ∀ rest, body ≠ '@' :: rest) (hcut : body.cut? ['%', '>'] = some (front, back)) :
    scanBlock body = ⟨codeToken front, ['<', '%'] ++ front ++ ['%', '>']⟩ := by
  rw [scanBlock_other hcomment hdirective, hcut]
  rfl

/-- A terminated block is read the same whatever follows it. -/
theorem scanBlock_append {body : Text} (h : (scanBlock body).token.isBlock = true) (more : Text) :
    scanBlock (body ++ more) = scanBlock body := by
  unfold scanBlock at h
  split at h
  · next inside =>
    split at h
    · next hcut => simp only [List.cons_append, scanBlock, Text.cut?_append hcut, hcut]
    · cases h
  · next inside =>
    dsimp only at h
    split at h
    · next hcut =>
      split at h
      · cases h
      · next hholds =>
        simp only [List.cons_append, scanBlock, Text.cut?_append hcut, hcut, if_neg hholds]
    · cases h
  · next hcomment hdirective =>
    split at h
    · next hcut =>
      have hlength := Text.length_of_cut? hcut
      -- the mark takes two characters, enough to tell a block from a comment or a directive
      rcases body with _ | ⟨c, _ | ⟨d, inside⟩⟩
      · simp at hlength
      · simp only [List.length_cons, List.length_nil] at hlength
        omega
      · rw [scanBlock_code hcomment hdirective hcut]
        refine scanBlock_code ?_ ?_ (Text.cut?_append hcut more)
        · rintro rest heq
          simp only [List.cons_append, List.cons.injEq] at heq
          obtain ⟨rfl, rfl, -⟩ := heq
          exact hcomment _ rfl
        · rintro rest heq
          simp only [List.cons_append, List.cons.injEq] at heq
          obtain ⟨rfl, -⟩ := heq
          exact hdirective _ rfl
    · cases h

theorem IsBlock.eq_scanBlock (h : IsBlock t) :
    ∃ body, t = '<' :: '%' :: body ∧ scanBlock body = ⟨(scan t).token, t⟩ := by
  obtain ⟨hblock, htext⟩ := h
  have hclosing : ∀ u, (scanClosing u).token.isBlock = false := by
    intro u
    simp only [scanClosing]
    repeat' split
    all_goals rfl
  have hopening : ∀ u, (scanOpening u).token.isBlock = false := by
    intro u
    simp only [scanOpening]
    repeat' split
    all_goals rfl
  have hne : t ≠ [] := by
    rintro rfl
    cases hblock
  rcases scan_cases hne with ⟨body, rfl, hscan⟩ | ⟨rest, -, hscan⟩ | ⟨rest, -, hscan⟩ | ⟨c, rest, -, -, hscan⟩
  · rw [hscan] at htext ⊢
    exact ⟨body, rfl, congrArg (Lexeme.mk _) htext⟩
  · rw [hscan, hclosing] at hblock
    cases hblock
  · rw [hscan, hopening] at hblock
    cases hblock
  · rw [hscan] at hblock
    cases hblock

/-- A terminated block is one in front of any text. -/
theorem IsBlock.scan_append (h : IsBlock t) (more : Text) : scan (t ++ more) = ⟨(scan t).token, t⟩ := by
  obtain ⟨body, rfl, hscan⟩ := h.eq_scanBlock
  have hblock : (scanBlock body).token.isBlock = true := by
    rw [hscan]
    exact h.1
  exact (scanBlock_append hblock more).trans hscan

/-- Text in which nothing starts but terminated blocks: a `<` outside of them stands in front of a
character that makes it text. -/
inductive Inert : Text → Prop
  | nil : Inert []
  | block {block rest : Text} (h : IsBlock block) : Inert rest → Inert (block ++ rest)
  | char {c : Char} {rest : Text} (h : c ≠ '<') : Inert rest → Inert (c :: rest)
  | mark {c : Char} {rest : Text} (h : Tag.isNameChar c = false) (hblock : c ≠ '%') (hclosing : c ≠ '/') :
    Inert (c :: rest) → Inert ('<' :: c :: rest)

theorem Inert.append {front back : Text} (hfront : Inert front) (hback : Inert back) :
    Inert (front ++ back) := by
  induction hfront with
  | nil => exact hback
  | block h _ ih =>
    rw [List.append_assoc]
    exact .block h ih
  | char h _ ih => exact .char h ih
  | mark h hblock hclosing _ ih => exact .mark h hblock hclosing ih

theorem Inert.of_forall (h : ∀ c ∈ t, c ≠ '<') : Inert t := by
  induction t with
  | nil => exact .nil
  | cons c t ih =>
    exact .char (h c (List.mem_cons_self ..)) (ih fun d hd => h d (List.mem_cons_of_mem _ hd))

theorem Inert.of_cut? {front back : Text} (h : Inert t) (hcut : t.cut? ['<', '%'] = some (front, back)) :
    Inert (['<', '%'] ++ back) := by
  induction h generalizing front with
  | nil => simp [Text.cut?] at hcut
  | @block block rest hblock hrest _ =>
    obtain ⟨body, rfl, -⟩ := hblock.eq_scanBlock
    have hnil : front = [] ∧ back = body ++ rest := by
      simpa [Text.cut?, Text.after?, eq_comm] using hcut
    rw [hnil.2]
    simpa using Inert.block hblock hrest
  | @char c rest hc _ ih =>
    have hnone : Text.after? (c :: rest) ['<', '%'] = none := by simp [Text.after?, hc]
    rw [Text.cut?, hnone] at hcut
    obtain ⟨⟨front', back'⟩, hrest, heq⟩ := Option.map_eq_some_iff.1 hcut
    cases heq
    exact ih hrest
  | @mark c rest _ hblock _ _ ih =>
    have hnone : Text.after? ('<' :: c :: rest) ['<', '%'] = none := by simp [Text.after?, hblock]
    rw [Text.cut?, hnone] at hcut
    obtain ⟨⟨front', back'⟩, hrest, heq⟩ := Option.map_eq_some_iff.1 hcut
    cases heq
    exact ih hrest

theorem scan_text {c : Char} (h : c ≠ '<') (t : Text) : scan (c :: t) = ofText c t := by
  simp [scan, h]

/-- A `<` in front of neither a name nor a block or slash is text. -/
theorem scan_mark {c : Char} (h : Tag.isNameChar c = false) (hblock : c ≠ '%') (hclosing : c ≠ '/')
    (t : Text) : scan ('<' :: c :: t) = ofText '<' (c :: t) := by
  have hname : (c :: t).takeWhile Tag.isNameChar = [] := by simp [h]
  have hpart : Tag.isPartChar c = false := by
    simp only [Tag.isNameChar, Tag.isPartChar, Bool.or_eq_false_iff] at h ⊢
    exact ⟨h.1, by simp_all⟩
  have hprefix : Tag.prefixedName? (c :: t) = none := by simp [Tag.prefixedName?, hpart]
  have hinside : (Tag.inside (c :: t)).takeWhile Tag.isNameChar = [] := by
    simp only [Tag.inside, List.takeWhile_cons]
    split <;> simp [h]
  have hrunat : Tag.runatName? true '<' (Tag.inside (c :: t)) = none := by
    simp only [Tag.runatName?, hinside, List.take_nil]
    split <;> rfl
  have hscan : scan ('<' :: c :: t) = scanOpening (c :: t) := by simp [scan, hblock, hclosing]
  rw [hscan, scanOpening]
  simp only [hname, hprefix, hrunat, Option.or_none]

end Lexeme

end ServerPages
