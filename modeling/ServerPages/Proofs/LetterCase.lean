import ServerPages.Proofs.Reading
import ServerPages.Markup.Lexeme

/-! Reading does not see case. Every mark that a reader looks for is no letter, every kind of character it
tells apart has both cases of a letter, and words are compared in lower case. So what is read of a text in
lower case is what is read of the text, in lower case. -/

namespace ServerPages

namespace Text

def capitals : Text := "ABCDEFGHIJKLMNOPQRSTUVWXYZ".toList

theorem toLower_cases (c : Char) : c.toLower = c ∨ c ∈ capitals := by
  have hcapital : ∀ n < 26, Char.ofNat (65 + n) ∈ capitals := by decide
  unfold Char.toLower
  split
  · next h =>
    right
    have hlow : 65 ≤ c.toNat := UInt32.le_iff_toNat_le.1 h.1
    have hhigh : c.toNat ≤ 90 := UInt32.le_iff_toNat_le.1 h.2
    have hmem := hcapital (c.toNat - 65) (by omega)
    rwa [show 65 + (c.toNat - 65) = c.toNat by omega, Char.ofNat_toNat] at hmem
  · exact .inl rfl

/-- What holds of a capital and its small letter, and of a character and itself, holds of every character
and its lower case. -/
theorem forall_toLower {p : Char → Char → Bool} (hsame : ∀ c, p c c = true)
    (hcapitals : (capitals.all fun c => p c c.toLower) = true) (c : Char) : p c c.toLower = true := by
  rcases toLower_cases c with h | h
  · rw [h]
    exact hsame c
  · exact List.all_eq_true.1 hcapitals c h

theorem toLower_toLower (c : Char) : c.toLower.toLower = c.toLower := by
  rcases toLower_cases c with h | h
  · rw [h, h]
  · have hcapitals : (capitals.all fun c => c.toLower.toLower == c.toLower) = true := by decide
    exact beq_iff_eq.1 (List.all_eq_true.1 hcapitals c h)

@[simp] theorem utf8Size_toLower (c : Char) : c.toLower.utf8Size = c.utf8Size :=
  beq_iff_eq.1 (forall_toLower (p := fun c d => d.utf8Size == c.utf8Size) (fun _ => beq_self_eq_true _)
    (by decide) c)

/-- The predicate has the same value for both cases of a letter. -/
def Blind (p : Char → Bool) : Prop := ∀ c, p c.toLower = p c

theorem blind_of_capitals {p : Char → Bool} (h : (capitals.all fun c => p c.toLower == p c) = true) :
    Blind p :=
  fun c => beq_iff_eq.1 (forall_toLower (p := fun c d => p d == p c) (fun _ => beq_self_eq_true _) h c)

/-- marks are no letters -/
def isMark (c : Char) : Bool := !c.isAlpha

theorem toLower_eq_iff {c m : Char} (hm : isMark m = true) : c.toLower = m ↔ c = m := by
  have hcapitals : (capitals.all fun c => !isMark c && !isMark c.toLower) = true := by decide
  rcases toLower_cases c with h | h
  · rw [h]
  · have hboth := List.all_eq_true.1 hcapitals c h
    simp only [Bool.and_eq_true, Bool.not_eq_true'] at hboth
    constructor
    · rintro rfl
      simp [hboth.2] at hm
    · rintro rfl
      simp [hboth.1] at hm

theorem toLower_ne {c m : Char} (hm : isMark m = true) (h : c ≠ m) : c.toLower ≠ m :=
  fun hlower => h ((toLower_eq_iff hm).1 hlower)

theorem toLower_mark {m : Char} (hm : isMark m = true) : m.toLower = m := (toLower_eq_iff hm).2 rfl

theorem blind_eq {m : Char} (hm : isMark m = true) : Blind (· == m) := by
  intro c
  rw [Bool.eq_iff_iff, beq_iff_eq, beq_iff_eq, toLower_eq_iff hm]

theorem blind_ne {m : Char} (hm : isMark m = true) : Blind (· != m) := by
  intro c
  simp only [bne, blind_eq hm c]

theorem blind_isSpace : Blind isSpace := blind_of_capitals (by decide)
theorem blind_isWord : Blind isWord := blind_of_capitals (by decide)

@[simp] theorem lower_nil : lower [] = [] := rfl
@[simp] theorem lower_cons (c : Char) (t : Text) : lower (c :: t) = c.toLower :: lower t := rfl
@[simp] theorem lower_append (a b : Text) : lower (a ++ b) = lower a ++ lower b := List.map_append
@[simp] theorem length_lower (t : Text) : t.lower.length = t.length := List.length_map _
@[simp] theorem lower_eq_nil {t : Text} : t.lower = [] ↔ t = [] := List.map_eq_nil_iff
@[simp] theorem isEmpty_lower (t : Text) : t.lower.isEmpty = t.isEmpty := by cases t <;> rfl

@[simp] theorem byteLength_lower (t : Text) : t.lower.byteLength = t.byteLength := by
  induction t with
  | nil => rfl
  | cons c t ih => simp [ih]

@[simp] theorem lower_lower (t : Text) : t.lower.lower = t.lower := by
  rw [lower, lower, List.map_map]
  exact congrArg (List.map · t) (funext toLower_toLower)

theorem take_lower (n : Nat) (t : Text) : t.lower.take n = lower (t.take n) := List.map_take.symm
theorem drop_lower (n : Nat) (t : Text) : t.lower.drop n = lower (t.drop n) := List.map_drop.symm

theorem lower_reverse (t : Text) : lower t.reverse = t.lower.reverse := List.map_reverse

@[simp] theorem same_lower_left (a b : Text) : same a.lower b = same a b := by simp [same]
@[simp] theorem same_lower_right (a b : Text) : same a b.lower = same a b := by simp [same]

/-- A text in lower case starts with the mark that the text starts with. -/
theorem lower_eq_cons {t u : Text} {m : Char} (hm : isMark m = true) :
    t.lower = m :: u ↔ ∃ v : Text, t = m :: v ∧ u = v.lower := by
  constructor
  · intro h
    obtain ⟨c, v, rfl, hc, hv⟩ := List.map_eq_cons_iff.1 h
    exact ⟨v, by rw [(toLower_eq_iff hm).1 hc], hv.symm⟩
  · rintro ⟨v, rfl, rfl⟩
    rw [lower_cons, toLower_mark hm]

theorem takeWhile_lower {p : Char → Bool} (h : Blind p) (t : Text) :
    t.lower.takeWhile p = lower (t.takeWhile p) := by
  rw [lower, List.takeWhile_map, show p ∘ Char.toLower = p from funext h]
  rfl

theorem dropWhile_lower {p : Char → Bool} (h : Blind p) (t : Text) :
    t.lower.dropWhile p = lower (t.dropWhile p) := by
  rw [lower, List.dropWhile_map, show p ∘ Char.toLower = p from funext h]
  rfl

theorem contains_lower {m : Char} (hm : isMark m = true) (t : Text) :
    t.lower.contains m = t.contains m := by
  simp only [List.contains_eq_any_beq, lower, List.any_map]
  congr 1
  funext c
  rw [Function.comp, Bool.beq_comm, Bool.beq_comm (a := m)]
  exact blind_eq hm c

@[simp] theorem trimStart_lower (t : Text) : t.lower.trimStart = t.trimStart.lower :=
  dropWhile_lower blind_isSpace t

@[simp] theorem trimEnd_lower (t : Text) : t.lower.trimEnd = t.trimEnd.lower := by
  rw [trimEnd, ← lower_reverse, trimStart_lower, ← lower_reverse, trimEnd]

@[simp] theorem trim_lower (t : Text) : t.lower.trim = t.trim.lower := by
  rw [trim, trimStart_lower, trimEnd_lower, trim]

@[simp] theorem upTo_lower (t rest : Text) : upTo t.lower rest.lower = (t.upTo rest).lower := by
  rw [upTo, upTo, length_lower, length_lower, take_lower]

/-- The text starts with the mark in both cases, or in neither. -/
theorem head?_lower {m : Char} (hm : isMark m = true) (t : Text) :
    (t.lower.head? == some m) = (t.head? == some m) := by
  cases t with
  | nil => rfl
  | cons c t => exact blind_eq hm c

theorem map_head?_lower {p : Char → Bool} (h : Blind p) (t : Text) :
    t.lower.head?.map p = t.head?.map p := by
  cases t with
  | nil => rfl
  | cons c t => exact congrArg some (h c)

section Marks

variable {m : Text}

theorem after?_lower (hmark : m.all isMark = true) (t : Text) :
    t.lower.after? m = (t.after? m).map lower := by
  induction m generalizing t with
  | nil => cases t <;> rfl
  | cons d m ih =>
    rw [List.all_cons, Bool.and_eq_true] at hmark
    cases t with
    | nil => rfl
    | cons c t =>
      rw [lower_cons, after?, after?]
      simp only [toLower_eq_iff hmark.1]
      split
      · exact ih hmark.2 t
      · rfl

theorem before?_lower (hmark : m.all isMark = true) (t : Text) :
    t.lower.before? m = (t.before? m).map lower := by
  have hreverse : m.reverse.all isMark = true := by rwa [List.all_reverse]
  rw [before?, before?, ← lower_reverse, after?_lower hreverse, Option.map_map, Option.map_map]
  congr 1
  funext t
  exact (lower_reverse t).symm

theorem cut?_lower (hmark : m.all isMark = true) (t : Text) :
    t.lower.cut? m = (t.cut? m).map (Prod.map lower lower) := by
  induction t with
  | nil => rfl
  | cons c t ih =>
    rw [lower_cons, cut?, cut?, ← lower_cons, after?_lower hmark]
    cases after? (c :: t) m with
    | some rest => rfl
    | none =>
      simp only [Option.map_none, ih, Option.map_map]
      rfl

theorem holds_lower (hmark : m.all isMark = true) (t : Text) :
    t.lower.holds m = t.holds m := by
  rw [holds, cut?_lower hmark, Option.isSome_map, holds]

theorem restsAfter_lower (hmark : m.all isMark = true) (t : Text) :
    t.lower.restsAfter m = (t.restsAfter m).map lower := by
  induction t with
  | nil => rfl
  | cons c t ih =>
    rw [lower_cons, restsAfter, restsAfter, ← lower_cons, after?_lower hmark, ih]
    cases after? (c :: t) m <;> rfl

end Marks

end Text

end ServerPages
