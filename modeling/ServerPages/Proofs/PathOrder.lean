import Mathlib.Data.Char
import Mathlib.Data.List.Lex
import Mathlib.Data.Prod.Lex
import ServerPages.Path.Basic

/-! Paths that are made of names. Split at the slashes, such a path gives its names back, and its
components are these names. The order of paths is linear on component lists; for paths of names it is the
lexicographic order of the lists of names, each compared by its characters. -/

namespace ServerPages

namespace Text

theorem split_ne_nil (t : Text) (c : Char) : t.split c ≠ [] := by
  cases t with
  | nil => simp [split]
  | cons d t =>
    simp only [split]
    split
    · simp
    · split <;> simp

theorem split_append_cons (a b : Text) (c : Char) :
    (a ++ c :: b).split c = a.split c ++ b.split c := by
  induction a with
  | nil => simp [split]
  | cons d a ih =>
    simp only [List.cons_append, split, ih]
    split
    · rfl
    · cases hpieces : split a c with
      | nil => exact absurd hpieces (split_ne_nil a c)
      | cons piece pieces => rfl

theorem split_of_notMem {t : Text} {c : Char} (h : c ∉ t) : t.split c = [t] := by
  induction t with
  | nil => rfl
  | cons d t ih =>
    obtain ⟨hd, ht⟩ := not_or.1 (mt List.mem_cons.2 h)
    simp only [split, if_neg (Ne.symm hd), ih ht]

theorem join_cons {separator piece : Text} {pieces : List Text} (h : pieces ≠ []) :
    join separator (piece :: pieces) = piece ++ separator ++ join separator pieces := by
  cases pieces with
  | nil => exact absurd rfl h
  | cons second pieces => rfl

theorem split_join {c : Char} {pieces : List Text} (hne : pieces ≠ [])
    (h : ∀ piece ∈ pieces, c ∉ piece) : (join [c] pieces).split c = pieces := by
  induction pieces with
  | nil => exact absurd rfl hne
  | cons piece pieces ih =>
    obtain ⟨hpiece, hpieces⟩ := List.forall_mem_cons.1 h
    rcases eq_or_ne pieces [] with rfl | hmore
    · exact split_of_notMem hpiece
    · rw [join_cons hmore, List.append_assoc, List.singleton_append, split_append_cons,
        split_of_notMem hpiece, ih hmore hpieces, List.singleton_append]

/-- A piece between separators is made of characters of the text, none of them a separator. -/
theorem forall_mem_split {t piece : Text} {separator : Char} (h : piece ∈ t.split separator) :
    ∀ c ∈ piece, c ∈ t ∧ c ≠ separator := by
  induction t generalizing piece with
  | nil =>
    rw [List.mem_singleton.1 h]
    exact List.forall_mem_nil _
  | cons d t ih =>
    have hinside {piece : Text} (h : piece ∈ split t separator) :
        ∀ c ∈ piece, c ∈ d :: t ∧ c ≠ separator :=
      fun c hc => ⟨List.mem_cons_of_mem _ (ih h c hc).1, (ih h c hc).2⟩
    rw [split] at h
    split at h
    · rcases List.mem_cons.1 h with rfl | h
      · exact List.forall_mem_nil _
      · exact hinside h
    · next hd =>
      cases hpieces : split t separator with
      | nil => exact absurd hpieces (split_ne_nil t separator)
      | cons first pieces =>
        rw [hpieces] at h hinside
        rcases List.mem_cons.1 h with rfl | h
        · exact List.forall_mem_cons.2 ⟨⟨List.mem_cons_self .., hd⟩, hinside (List.mem_cons_self ..)⟩
        · exact hinside (List.mem_cons_of_mem _ h)

theorem notMem_of_mem_split {t piece : Text} {separator : Char} (h : piece ∈ t.split separator) :
    separator ∉ piece :=
  fun hmem => (forall_mem_split h _ hmem).2 rfl

end Text

namespace Path

/-- What a file or a folder can be called. -/
structure IsName (name : Text) : Prop where
  ne_nil : name ≠ []
  flat : '/' ∉ name
  ne_current : name ≠ ['.']
  ne_parent : name ≠ ['.', '.']

instance (name : Text) : Decidable (IsName name) :=
  decidable_of_iff (name ≠ [] ∧ '/' ∉ name ∧ name ≠ ['.'] ∧ name ≠ ['.', '.'])
    ⟨fun ⟨h₁, h₂, h₃, h₄⟩ => ⟨h₁, h₂, h₃, h₄⟩, fun h => ⟨h.1, h.2, h.3, h.4⟩⟩

/-- The path that names lead along. -/
abbrev ofNames (names : List Text) : Text := Text.join ['/'] names

section Names

variable {names : List Text}

theorem split_ofNames (hne : names ≠ []) (h : ∀ name ∈ names, IsName name) :
    (ofNames names).split '/' = names :=
  Text.split_join hne fun name hname => (h name hname).flat

theorem head?_ofNames (h : ∀ name ∈ names, IsName name) : (ofNames names).head? ≠ some '/' := by
  cases names with
  | nil => simp [Text.join]
  | cons name rest =>
    have hname := h name (List.mem_cons_self ..)
    have hhead : name.head? ≠ some '/' := fun hslash => hname.flat (List.mem_of_head? hslash)
    cases rest with
    | nil => exact hhead
    | cons second rest =>
      rw [ofNames, Text.join_cons (List.cons_ne_nil _ _), List.append_assoc,
        List.head?_append_of_ne_nil _ hname.ne_nil]
      exact hhead

theorem component?_of_isName {name : Text} (h : IsName name) (first : Bool) :
    component? first name = some (.normal name) := by
  simp [component?, h.ne_nil, h.ne_current, h.ne_parent]

theorem components_ofNames (h : ∀ name ∈ names, IsName name) :
    components (ofNames names) = names.map .normal := by
  have hrelative : components (ofNames names) = ofSegments ((ofNames names).split '/') := by
    unfold components
    split
    · next rest hslash => exact absurd (congrArg List.head? hslash) (head?_ofNames h)
    · rfl
  rw [hrelative]
  cases names with
  | nil => rfl
  | cons name rest =>
    rw [split_ofNames (List.cons_ne_nil _ _) h, ofSegments,
      component?_of_isName (h name (List.mem_cons_self ..))]
    have hrest : rest.filterMap (component? false) = rest.map .normal := by
      rw [← List.filterMap_eq_map]
      exact List.filterMap_congr fun name hname =>
        component?_of_isName (h name (List.mem_cons_of_mem _ hname)) false
    rw [hrest]
    rfl

theorem ofNames_inj {others : List Text} (h : ∀ name ∈ names, IsName name)
    (hothers : ∀ name ∈ others, IsName name) (heq : ofNames names = ofNames others) :
    names = others := by
  have hcomponents := congrArg components heq
  rw [components_ofNames h, components_ofNames hothers] at hcomponents
  exact List.map_injective_iff.2 (fun _ _ => Component.normal.inj) hcomponents

theorem fileName?_ofNames (h : ∀ name ∈ names, IsName name) :
    fileName? (ofNames names) = names.getLast? := by
  rw [fileName?, components_ofNames h, List.getLast?_map]
  cases names.getLast? <;> rfl

end Names

/-- The kind of a component and its name, by which components are ordered. -/
def Component.rank : Component → Nat ×ₗ Text
  | .root => toLex (0, [])
  | .current => toLex (1, [])
  | .parent => toLex (2, [])
  | .normal name => toLex (3, name)

namespace Component

theorem rank_injective : Function.Injective rank := by
  intro a b h
  cases a <;> cases b <;> simp_all [rank]

theorem rank_normal_lt {a b : Text} (h : a < b) : (normal a).rank < (normal b).rank :=
  Prod.Lex.toLex_lt_toLex.2 (.inr ⟨rfl, h⟩)

theorem le_normal {a b : Text} : (normal a).le (normal b) = true ↔ a ≤ b := by
  rw [le, Bool.not_eq_true', ← Bool.not_eq_true, List.lex_eq_true_iff_lex, ← not_lt]
  simp only [decide_eq_true_eq]
  exact Iff.rfl

theorem le_iff (a b : Component) : a.le b = true ↔ a.rank ≤ b.rank := by
  cases a with
  | normal a =>
    cases b with
    | normal b => rw [le_normal, rank, rank, Prod.Lex.toLex_le_toLex]; simp
    | _ => simp [le, rank, Prod.Lex.toLex_le_toLex]
  | _ => cases b <;> simp [le, rank, Prod.Lex.toLex_le_toLex]

end Component

theorem leComponents_iff (as bs : List Component) :
    leComponents as bs = true ↔ as.map Component.rank ≤ bs.map Component.rank := by
  induction as generalizing bs with
  | nil => simp [leComponents, ← not_lt]
  | cons a as ih =>
    cases bs with
    | nil => simp [leComponents]
    | cons b bs =>
      rw [leComponents, List.map_cons, List.map_cons, ← not_lt, List.cons_lt_cons_iff, not_or, not_and,
        not_lt, not_lt]
      split
      · next hab => simp [hab, ih]
      · next hab =>
        have hrank : b.rank ≠ a.rank := fun h => hab (Component.rank_injective h).symm
        simp [Component.le_iff, hrank]

theorem le_iff (a b : Text) :
    le a b = true ↔ (components a).map Component.rank ≤ (components b).map Component.rank :=
  leComponents_iff _ _

theorem le_trans (a b c : Text) (hab : le a b = true) (hbc : le b c = true) : le a c = true := by
  rw [le_iff] at hab hbc ⊢
  exact hab.trans hbc

theorem le_total (a b : Text) : (le a b || le b a) = true := by
  rw [Bool.or_eq_true, le_iff, le_iff]
  exact LinearOrder.le_total _ _

/-- Paths of names are in the order of their lists of names. -/
theorem le_ofNames {as bs : List Text} (ha : ∀ name ∈ as, IsName name)
    (hb : ∀ name ∈ bs, IsName name) : le (ofNames as) (ofNames bs) = true ↔ as ≤ bs := by
  have hmono : StrictMono fun names : List Text => names.map (Component.rank ∘ Component.normal) :=
    fun _ _ h => List.map_lt (fun _ _ => Component.rank_normal_lt) h
  rw [le_iff, components_ofNames ha, components_ofNames hb, List.map_map, List.map_map]
  exact hmono.le_iff_le

end Path

end ServerPages
