import ServerPages.Source.Span
import ServerPages.Text.Space

/-! Attributes as they are written in tags and directives: a name, and after `=` a quoted, bare or
data-binding value. A binding `<%# … %>` may hold quotes, so a value that starts like one has
several possible ends; read on its own, an attribute takes the first. -/

namespace ServerPages

inductive AttributeValue where
  /-- a name alone -/
  | absent
  /-- a literal value without its quotes -/
  | text (value : Text)
  /-- `<%# expression %>`, or `<%#: expression %>` for encoded output -/
  | binding (expression : Text) (encode : Bool)
  deriving DecidableEq, Repr

namespace AttributeValue

def asText : AttributeValue → Text
  | .absent => []
  | .text value => value
  | .binding expression _ => expression

def isQuote (c : Char) : Bool := c == '\x22' || c == '\x27'

def bindingMark : Text := ['<', '%', '#']

def isBare (c : Char) : Bool :=
  !Text.isSpace c && !isQuote c && !(['=', '<', '>', '\x60'].contains c)

/-- The rests after a binding that starts the text and is closed by `%>` and `quote`. -/
def bindingRests (quote t : Text) : List Text :=
  match t.after? bindingMark with
  | some body => body.restsAfter (['%', '>'] ++ quote)
  | none => []

def quotedRests (quote : Char) (t : Text) : List Text :=
  (t.dropWhile (· != quote)).tail?.toList

/-- What may be left after a value that starts the text, the preferred end first: a binding ends at
any `%>` with its quote, any other quoted value at the next quote, a bare value where it must. -/
def rests : Text → List Text
  | [] => []
  | c :: t =>
    if isQuote c then bindingRests [c] t ++ quotedRests c t
    else if isBare c then [t.dropWhile isBare]
    else bindingRests [] (c :: t)

theorem length_lt_of_mem_rests {t rest : Text} (h : rest ∈ rests t) : rest.length < t.length := by
  cases t with
  | nil => simp [rests] at h
  | cons c t =>
    have hbinding : ∀ {quote u : Text}, rest ∈ bindingRests quote u → rest.length < u.length := by
      intro quote u h
      simp only [bindingRests] at h
      split at h
      · next body hb =>
        have := Text.length_after? hb
        have := Text.length_lt_of_mem_restsAfter (by simp) h
        omega
      · simp at h
    simp only [rests] at h
    split at h
    · rcases List.mem_append.1 h with h | h
      · have := hbinding h
        simp only [List.length_cons]
        omega
      · have hle := (List.dropWhile_suffix (l := t) (· != c)).length_le
        simp only [quotedRests] at h
        cases hd : t.dropWhile (· != c) with
        | nil => simp [hd] at h
        | cons d u =>
          simp only [hd, List.tail?_cons, Option.toList_some, List.mem_singleton] at h
          subst h
          simp only [hd, List.length_cons] at hle ⊢
          omega
    · split at h
      · have hle := (List.dropWhile_suffix (l := t) isBare).length_le
        simp only [List.mem_singleton] at h
        subst h
        simp only [List.length_cons]
        omega
      · exact hbinding h

def dropQuote : Text → Text
  | [] => []
  | c :: t => if isQuote c then t else c :: t

/-- What stands between `<%#` and `%>` when that is the whole value, quotes aside. -/
def bindingBody? (raw : Text) : Option Text := do
  let body ← (dropQuote raw).after? bindingMark
  Text.before? (dropQuote body.reverse).reverse ['%', '>']

def unquote : Text → Text
  | [] => []
  | c :: t =>
    match Text.before? t [c] with
    | some inner => if isQuote c then inner else c :: t
    | none => c :: t

def ofRaw (raw : Text) : AttributeValue :=
  match bindingBody? raw with
  | some (':' :: expression) => .binding expression true
  | some expression => .binding expression false
  | none => .text (unquote raw)

end AttributeValue

/-- The value of what is found is that of the first element that fits. -/
theorem map_find?_eq_some_iff {α β : Type} {p : α → Bool} {f : α → β} {as : List α} {v : β} :
    (as.find? p).map f = some v ↔ ∃ front a back, as = front ++ a :: back ∧
      (∀ b ∈ front, p b = false) ∧ p a = true ∧ f a = v := by
  simp only [Option.map_eq_some_iff, List.find?_eq_some_iff_append, Bool.not_eq_true']
  constructor
  · rintro ⟨a, ⟨ha, front, back, has, hfront⟩, hv⟩
    exact ⟨front, a, back, has, hfront, ha, hv⟩
  · rintro ⟨front, a, back, has, hfront, ha, hv⟩
    exact ⟨a, ⟨ha, front, back, has, hfront⟩, hv⟩

structure Attribute where
  name : Text
  value : AttributeValue
  place : Fragment
  deriving DecidableEq, Repr

namespace Attribute

def isNameChar (c : Char) : Bool :=
  !Text.isSpace c && !AttributeValue.isQuote c && !(['<', '>', '/', '=', '%'].contains c)

/-- Where the value starts when an equals sign comes next. -/
def valueStart? (t : Text) : Option Text :=
  match t.trimStart with
  | '=' :: value => some (Text.trimStart value)
  | _ => none

theorem length_valueStart? {t start : Text} (h : valueStart? t = some start) :
    start.length < t.length := by
  simp only [valueStart?] at h
  split at h
  · next value ht =>
    have hle := Text.length_trimStart_le t
    have hv := Text.length_trimStart_le value
    simp only [ht, List.length_cons] at hle
    simp only [Option.some.injEq] at h
    subst h
    omega
  · simp at h

def value? (t : Text) : Option (Text × Text) := do
  let start ← valueStart? t
  let rest ← (AttributeValue.rests start).head?
  return (start.upTo rest, rest)

def read? (start : Fragment) : Option (Attribute × Text) :=
  let t := start.text
  let name := t.takeWhile isNameChar
  let rest := t.dropWhile isNameChar
  if name.isEmpty then none
  else
    match value? rest with
    | some (raw, rest) => some (⟨name, .ofRaw raw, ⟨start.offset, t.upTo rest⟩⟩, rest)
    | none => some (⟨name, .absent, ⟨start.offset, name⟩⟩, rest)

theorem length_read? {start : Fragment} {a : Attribute} {rest : Text}
    (h : read? start = some (a, rest)) : rest.length < start.text.length := by
  have hlen : (start.text.takeWhile isNameChar).length + (start.text.dropWhile isNameChar).length =
      start.text.length := by
    rw [← List.length_append, List.takeWhile_append_dropWhile]
  simp only [read?] at h
  split at h
  · simp at h
  · next hname =>
    have hpos : 0 < (start.text.takeWhile isNameChar).length := by
      rw [List.length_pos_iff]
      simpa using hname
    split at h
    · next raw rest' hv =>
      simp only [Option.some.injEq, Prod.mk.injEq] at h
      obtain ⟨-, rfl⟩ := h
      simp only [value?, Option.bind_eq_bind, Option.bind_eq_some_iff] at hv
      obtain ⟨v, hstart, r, hr, hv⟩ := hv
      have h1 := length_valueStart? hstart
      have h2 := AttributeValue.length_lt_of_mem_rests (List.mem_of_head? hr)
      simp only [pure, Option.some.injEq, Prod.mk.injEq] at hv
      obtain ⟨-, rfl⟩ := hv
      omega
    · simp only [Option.some.injEq, Prod.mk.injEq] at h
      obtain ⟨-, rfl⟩ := h
      omega

/-- Attributes read one after another, and the text left where no attribute follows. With `spaced`,
white space has to stand before each of them. -/
def readAll (spaced : Bool) (start : Fragment) : List Attribute × Fragment :=
  if spaced && start.text.trimStart.length == start.text.length then ([], start)
  else
    match _h : read? (start.skipTo start.text.trimStart) with
    | none => ([], start)
    | some (a, rest) =>
      let (more, left) := readAll spaced (start.skipTo rest)
      (a :: more, left)
termination_by start.text.length
decreasing_by
  have h1 := length_read? ‹read? _ = _›
  have h2 := Text.length_trimStart_le start.text
  simp only [Fragment.skipTo] at h1 ⊢
  omega

/-- The attributes of a tag, given the text after its name. -/
def ofTag (start : Fragment) : List Attribute := (readAll true start).1

def find? (attributes : List Attribute) (name : Text) : Option Attribute :=
  attributes.find? (·.name.same name)

def textOf? (attributes : List Attribute) (name : Text) : Option Text :=
  (find? attributes name).map (·.value.asText)

theorem textOf?_eq_some_iff {attributes : List Attribute} {name text : Text} :
    textOf? attributes name = some text ↔ ∃ front a back, attributes = front ++ a :: back ∧
      (∀ b ∈ front, b.name.same name = false) ∧ a.name.same name = true ∧ a.value.asText = text := by
  rw [textOf?, find?, map_find?_eq_some_iff]

end Attribute

end ServerPages
