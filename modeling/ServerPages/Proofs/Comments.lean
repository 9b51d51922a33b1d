import ServerPages.Config.Comment
import ServerPages.Proofs.Slice

/-! Comments taken out of a configuration. A text is cut into strings, comments and single characters, from left
to right; what is left of it is all of them but the comments. A slash that is left stands in front of what it
stood in front of before, so nothing that is left is a comment, and no more is taken out the second time. -/

namespace ServerPages

namespace Comment

inductive Segment where
  | string (text : Text)
  | comment (text : Text)
  | single (c : Char)
  deriving DecidableEq, Repr

namespace Segment

def text : Segment → Text
  | string text | comment text => text
  | single c => [c]

def isComment : Segment → Bool
  | comment _ => true
  | _ => false

end Segment

/-- A string cut off behind its opening quote: it runs to the first quote that no backslash escapes. -/
def cutString : Text → Text × Text
  | [] => ([], [])
  | '\x22' :: t => (['\x22'], t)
  | '\\' :: c :: t => ('\\' :: c :: (cutString t).1, (cutString t).2)
  | c :: t => (c :: (cutString t).1, (cutString t).2)

theorem cutString_append (t : Text) : (cutString t).1 ++ (cutString t).2 = t := by
  fun_induction cutString t with
  | case1 => rfl
  | case2 t => rfl
  | case3 c t ih => rw [List.cons_append, List.cons_append, ih]
  | case4 c t _ _ ih => rw [List.cons_append, ih]

theorem length_cutString_le (t : Text) : (cutString t).2.length ≤ t.length := by
  have h := congrArg List.length (cutString_append t)
  rw [List.length_append] at h
  omega

/-- The text cut into segments. Outside strings and comments a quote begins a string, two slashes a comment up to
the end of the line, a slash and a star a comment through the first star and slash behind them. -/
def segments : Text → List Segment
  | [] => []
  | '\x22' :: t => .string ('\x22' :: (cutString t).1) :: segments (cutString t).2
  | '/' :: '/' :: t =>
    .comment ('/' :: '/' :: t.takeWhile (· != '\n')) :: segments (t.dropWhile (· != '\n'))
  | '/' :: '*' :: t =>
    match _ : Text.cut? t ['*', '/'] with
    | some (inside, rest) => .comment ('/' :: '*' :: inside ++ ['*', '/']) :: segments rest
    | none => [.comment ('/' :: '*' :: t)]
  | c :: t => .single c :: segments t
termination_by t => t.length
decreasing_by
  · have := length_cutString_le t
    simp only [List.length_cons]
    omega
  · have := (List.dropWhile_suffix (· != '\n') (l := t)).length_le
    simp only [List.length_cons]
    omega
  · have := Text.length_of_cut? ‹_›
    simp only [List.length_cons]
    omega
  · simp

@[simp] theorem segments_nil : segments [] = [] := by rw [segments]

def kept (segments : List Segment) : List Segment := segments.filter (!·.isComment)

theorem flatMap_segments (t : Text) : (segments t).flatMap Segment.text = t := by
  fun_induction segments t with
  | case1 => rfl
  | case2 t ih => simp only [List.flatMap_cons, ih, Segment.text, List.cons_append, cutString_append]
  | case3 t ih =>
    simp only [List.flatMap_cons, ih, Segment.text, List.cons_append, List.takeWhile_append_dropWhile]
  | case4 t inside rest h ih =>
    simp only [List.flatMap_cons, ih, Segment.text, List.cons_append, List.append_assoc, Text.cut?_eq_some h]
  | case5 t h => simp [Segment.text]
  | case6 c t hstring hline hblock ih => simp [Segment.text, ih]

theorem removeFrom_string (t : Text) :
    removeFrom .string t = (cutString t).1 ++ removeFrom .plain (cutString t).2 := by
  fun_induction cutString t with
  | case1 => rfl
  | case2 t => rfl
  | case3 c t ih => simp only [removeFrom, ih, List.cons_append]
  | case4 c t hquote hescape ih => rw [removeFrom, ih, List.cons_append] <;> assumption

theorem removeFrom_line (t : Text) :
    removeFrom .line t = removeFrom .plain (t.dropWhile (· != '\n')) := by
  induction t with
  | nil => rfl
  | cons c t ih =>
    by_cases hc : c = '\n'
    · subst hc
      simp [removeFrom]
    · rw [List.dropWhile_cons_of_pos (by simpa using hc), removeFrom, ih]
      simpa using hc

theorem removeFrom_block (t : Text) :
    removeFrom .block t = ((Text.cut? t ['*', '/']).map (removeFrom .plain ·.2)).getD [] := by
  induction t with
  | nil => rfl
  | cons c t ih =>
    rw [Text.cut?]
    cases hafter : Text.after? (c :: t) ['*', '/'] with
    | some rest => rw [Text.after?_eq_some hafter]; rfl
    | none =>
      have hopen : ∀ rest, c = '*' → t ≠ '/' :: rest := by
        rintro rest rfl rfl
        simp [Text.after?] at hafter
      rw [removeFrom, ih]
      · cases Text.cut? t ['*', '/'] <;> rfl
      · exact hopen

theorem remove_string (t : Text) :
    remove ('\x22' :: t) = '\x22' :: ((cutString t).1 ++ remove (cutString t).2) := by
  rw [remove, removeFrom, removeFrom_string, remove]

theorem remove_line (t : Text) : remove ('/' :: '/' :: t) = remove (t.dropWhile (· != '\n')) := by
  rw [remove, removeFrom, removeFrom_line, remove]

theorem remove_block (t : Text) :
    remove ('/' :: '*' :: t) = ((Text.cut? t ['*', '/']).map (remove ·.2)).getD [] := by
  rw [remove, removeFrom, removeFrom_block]
  rfl

/-- The character begins neither a string nor a comment in front of the text. -/
structure Lone (c : Char) (t : Text) : Prop where
  string : c ≠ '\x22'
  line : ∀ rest, c = '/' → t ≠ '/' :: rest
  block : ∀ rest, c = '/' → t ≠ '*' :: rest

theorem Lone.remove {c : Char} {t : Text} (h : Lone c t) : remove (c :: t) = c :: remove t := by
  rw [Comment.remove, removeFrom, Comment.remove]
  · exact h.string
  · exact h.line
  · exact h.block

theorem Lone.segments {c : Char} {t : Text} (h : Lone c t) : segments (c :: t) = .single c :: segments t := by
  rw [Comment.segments]
  · exact h.string
  · exact h.line
  · exact h.block

theorem remove_eq (t : Text) : remove t = (kept (segments t)).flatMap Segment.text := by
  fun_induction segments t with
  | case1 => rfl
  | case2 t ih =>
    rw [remove_string, ih]
    rfl
  | case3 t ih =>
    rw [remove_line, ih]
    rfl
  | case4 t inside rest h ih =>
    rw [remove_block, h, Option.map_some, Option.getD_some, ih]
    rfl
  | case5 t h =>
    rw [remove_block, h]
    rfl
  | case6 c t hstring hline hblock ih =>
    rw [Lone.remove ⟨hstring, hline, hblock⟩, ih]
    rfl

/-- What stands first stays first, if it is no slash. -/
theorem head?_remove {t : Text} (h : t.head? ≠ some '/') : (remove t).head? = t.head? := by
  cases t with
  | nil => rfl
  | cons c t =>
    have hslash : c ≠ '/' := fun hc => h (by rw [hc, List.head?_cons])
    by_cases hquote : c = '\x22'
    · rw [hquote, remove_string]
      rfl
    · rw [Lone.remove ⟨hquote, fun _ hc => absurd hc hslash, fun _ hc => absurd hc hslash⟩]
      rfl

/-- A slash that stays begins no comment then either. -/
theorem Lone.remove_rest {c : Char} {t : Text} (h : Lone c t) : Lone c (Comment.remove t) := by
  by_cases hc : c = '/'
  · have hhead : t.head? ≠ some '/' := by
      intro hhead
      obtain ⟨rest, hrest⟩ := List.head?_eq_some_iff.1 hhead
      exact h.line rest hc hrest
    have hsame := head?_remove hhead
    refine ⟨h.string, fun rest _ hrest => ?_, fun rest _ hrest => ?_⟩
    · rw [hrest, List.head?_cons] at hsame
      exact hhead hsame.symm
    · rw [hrest, List.head?_cons] at hsame
      obtain ⟨rest', ht⟩ := List.head?_eq_some_iff.1 hsame.symm
      exact h.block rest' hc ht
  · exact ⟨h.string, fun _ hslash => absurd hslash hc, fun _ hslash => absurd hslash hc⟩

/-- A string is cut off in the same place whatever follows it, if it has an end. -/
theorem cutString_append_of_rest {t u : Text} (h : (cutString t).2 = [] → u = []) :
    cutString ((cutString t).1 ++ u) = ((cutString t).1, u) := by
  fun_induction cutString t with
  | case1 => rw [h rfl]; rfl
  | case2 t => rfl
  | case3 c t ih => simp only [List.cons_append, cutString, ih h]
  | case4 c t hquote hescape ih =>
    rw [List.cons_append, cutString, ih h]
    · exact hquote
    · intro c' rest hc hrest
      -- a backslash nothing stands behind ends the text, and nothing may follow it
      have ht : t = [] := by
        cases t with
        | nil => rfl
        | cons d t => exact absurd rfl (hescape d t hc)
      subst ht
      rw [h rfl] at hrest
      cases hrest

theorem segments_remove (t : Text) : segments (remove t) = kept (segments t) := by
  fun_induction segments t with
  | case1 => exact segments_nil
  | case2 t ih =>
    rw [remove_string, segments, cutString_append_of_rest, ih]
    · rfl
    · intro hend
      rw [hend]
      rfl
  | case3 t ih =>
    rw [remove_line, ih]
    rfl
  | case4 t inside rest h ih =>
    rw [remove_block, h, Option.map_some, Option.getD_some, ih]
    rfl
  | case5 t h =>
    rw [remove_block, h]
    exact segments_nil
  | case6 c t hstring hline hblock ih =>
    have hlone : Lone c t := ⟨hstring, hline, hblock⟩
    rw [hlone.remove, hlone.remove_rest.segments, ih]
    rfl

theorem kept_kept (ss : List Segment) : kept (kept ss) = kept ss := by
  rw [kept, kept, List.filter_filter]
  simp only [Bool.and_self]

/-- Exactly the comments are taken out. The segments are the whole text, what is left is the text of those that
are no comments, they are its own segments, and nothing more is taken out of it. -/
theorem remove_segments (t : Text) :
    (segments t).flatMap Segment.text = t ∧
      remove t = (kept (segments t)).flatMap Segment.text ∧
      segments (remove t) = kept (segments t) ∧
      remove (remove t) = remove t := by
  refine ⟨flatMap_segments t, remove_eq t, segments_remove t, ?_⟩
  calc remove (remove t)
      = (kept (segments (remove t))).flatMap Segment.text := remove_eq (remove t)
    _ = (kept (segments t)).flatMap Segment.text := by rw [segments_remove, kept_kept]
    _ = remove t := (remove_eq t).symm

/-- A star behind the opening slash and star does not close the comment with that slash. -/
example : remove "/*/ \"a//\" */\"b//\" / 1 // c".toList = "\"b//\" / 1 ".toList := by decide

end Comment

end ServerPages
