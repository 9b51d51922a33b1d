import ServerPages.Json.Scalar

/-! JSON documents as far as they can be read. A document that breaks off keeps what stands before
the break and says what was met there, so that whoever goes through it in order comes upon the first
fault at its place. -/

namespace ServerPages.Json

mutual

inductive Value where
  | null
  | bool (value : Bool)
  /-- the faults of a number that is read and of one that is skipped -/
  | number (read skipped : Option Fault)
  /-- the characters or the fault if the string is read, and the fault if it is skipped -/
  | string (read : Except Fault Text) (skipped : Option Fault)
  | array (items : List Value) (ending : Ending)
  /-- a key without characters is one whose surrogates are not paired -/
  | object (members : List (Option Text × Value)) (ending : Ending)
  /-- the text ends where a value should stand -/
  | absent
  | junk
  | broken (fault : Fault)
  /-- no colon comes between the key and the value -/
  | unreached (fault : Fault)

inductive Ending where
  | closed
  /-- neither a comma nor the closing bracket follows -/
  | open (fault : Fault)
  /-- what stands where, after a comma or an opening brace, the next item or key should be -/
  | dangling (found : Value)

end

inductive Token where
  | openArray
  | closeArray
  | openObject
  | closeObject
  | comma
  | colon
  | scalar (value : Value)
  | other

def isBlank (c : Char) : Bool := c == ' ' || c == '\t' || c == '\n' || c == '\r'

/-- A literal whose first letter was read: the rest of it, or how it breaks off. -/
def literal (value : Value) : (word t : Text) → Value × Text
  | [], t => (value, t)
  | _ :: _, [] => (.broken .ended, [])
  | w :: word, c :: t => if w = c then literal value word t else (.broken .malformed, c :: t)

theorem length_literal_le (value : Value) (word t : Text) :
    (literal value word t).2.length ≤ t.length := by
  induction word generalizing t with
  | nil => exact Nat.le_refl _
  | cons w word ih =>
    cases t with
    | nil => exact Nat.le_refl _
    | cons c t =>
      simp only [literal]
      split
      · exact Nat.le_succ_of_le (ih t)
      · exact Nat.le_refl _

def numberToken (t : Text) : Token × Text :=
  let scan := NumberScan.ofText t
  (.scalar (.number scan.read scan.skipped), scan.rest)

def stringToken (t : Text) : Token × Text :=
  match skipString t with
  | .ok rest => (.scalar (.string (readString t) none), rest)
  | .error fault => (.scalar (.string (readString t) (some fault)), [])

def literalToken (value : Value) (word t : Text) : Token × Text :=
  let (value, rest) := literal value word t
  (.scalar value, rest)

def token (c : Char) (t : Text) : Token × Text :=
  if isDigit c then numberToken (c :: t)
  else
    match c with
    | '[' => (.openArray, t)
    | ']' => (.closeArray, t)
    | '\x7b' => (.openObject, t)
    | '\x7d' => (.closeObject, t)
    | ',' => (.comma, t)
    | ':' => (.colon, t)
    | 'n' => literalToken .null ['u', 'l', 'l'] t
    | 't' => literalToken (.bool true) ['r', 'u', 'e'] t
    | 'f' => literalToken (.bool false) ['a', 'l', 's', 'e'] t
    | '\x22' => stringToken t
    | '-' => numberToken t
    | _ => (.other, t)

theorem length_token_le (c : Char) (t : Text) : (token c t).2.length ≤ t.length := by
  have hdigits := (List.dropWhile_suffix (l := t) isDigit).length_le
  unfold token
  split
  · next hc =>
    have := NumberScan.length_ofText_le (c :: t)
    rw [List.dropWhile_cons_of_pos hc] at this
    exact Nat.le_trans this hdigits
  · split
    all_goals try exact Nat.le_refl _
    · exact length_literal_le _ _ _
    · exact length_literal_le _ _ _
    · exact length_literal_le _ _ _
    · unfold stringToken
      split
      · next h => exact Nat.le_of_lt (length_skipString h)
      · exact Nat.zero_le _
    · exact Nat.le_trans (NumberScan.length_ofText_le t) hdigits

def tokens (t : Text) : List Token :=
  match t with
  | [] => []
  | c :: t =>
    if isBlank c then tokens t
    else (token c t).1 :: tokens (token c t).2
termination_by t.length
decreasing_by
  · simp
  · have := length_token_le c t
    simp only [List.length_cons]
    omega

/-- An array or object that is being read, what it holds so far the latest first. -/
inductive Level where
  | array (items : List Value)
  /-- with the key whose value comes next -/
  | object (members : List (Option Text × Value)) (key : Option Text)

namespace Level

def add : Level → Value → Level
  | .array items, value => .array (value :: items)
  | .object members key, value => .object ((key, value) :: members) none

def close : Level → Ending → Value
  | .array items, ending => .array items.reverse ending
  | .object members _, ending => .object members.reverse ending

end Level

inductive Phase where
  | value
  | first
  | item
  | after
  /-- a key, or the end if none came before -/
  | key (first : Bool)
  | colon

def enclose (levels : List Level) (value : Value) : Value :=
  levels.foldl (fun value level => (level.add value).close .closed) value

/-- What a token does to the levels that are open. -/
inductive Step where
  | next (levels : List Level) (phase : Phase)
  /-- the whole value is there -/
  | done (value : Value)
  /-- the text breaks off; the value so far -/
  | stop (value : Value)

namespace Step

def put (levels : List Level) (value : Value) : Step :=
  match levels with
  | [] => .done value
  | level :: outer => .next (level.add value :: outer) .after

def close (levels : List Level) : Step :=
  match levels with
  | [] => .stop .junk
  | level :: outer => put outer (level.close .closed)

def endWith (levels : List Level) (ending : Ending) : Step :=
  match levels with
  | [] => .stop .junk
  | level :: outer => .stop (enclose outer (level.close ending))

def inPlaceOfKey : Token → Value
  | .scalar value => value
  | .openArray => .array [] .closed
  | .openObject => .object [] .closed
  | _ => .junk

def atValue (levels : List Level) : Token → Step
  | .openArray => .next (.array [] :: levels) .first
  | .openObject => .next (.object [] none :: levels) (.key true)
  | .scalar value => put levels value
  | _ => .stop (enclose levels .junk)

def atAfter (levels : List Level) (token : Token) : Step :=
  match levels, token with
  | .array _ :: _, .comma => .next levels .item
  | .object _ _ :: _, .comma => .next levels (.key false)
  | .array _ :: _, .closeArray => close levels
  | .object _ _ :: _, .closeObject => close levels
  | _, _ => endWith levels (.open .malformed)

def atKey (levels : List Level) (first : Bool) (token : Token) : Step :=
  match levels, token with
  | .object members _ :: outer, .scalar (.string read none) =>
    .next (.object members read.toOption :: outer) .colon
  | _, .closeObject => if first then close levels else endWith levels (.dangling .junk)
  | _, token => endWith levels (.dangling (inPlaceOfKey token))

def ofToken (levels : List Level) (phase : Phase) (token : Token) : Step :=
  match phase, token with
  | .first, .closeArray => close levels
  | .item, .closeArray => endWith levels (.dangling .junk)
  | .value, token | .first, token | .item, token => atValue levels token
  | .after, token => atAfter levels token
  | .key first, token => atKey levels first token
  | .colon, .colon => .next levels .value
  | .colon, _ => .stop (enclose levels (.unreached .malformed))

def ofEnd (levels : List Level) (phase : Phase) : Step :=
  match phase with
  | .value => .stop (enclose levels .absent)
  | .first | .after | .key true => endWith levels (.open .ended)
  | .item | .key false => endWith levels (.dangling .absent)
  | .colon => .stop (enclose levels (.unreached .ended))

end Step

/-- The value that some tokens make, and whether tokens follow it. -/
def build (levels : List Level) (phase : Phase) : List Token → Value × Bool
  | [] =>
    match Step.ofEnd levels phase with
    | .next _ _ => (.absent, false)
    | .done value | .stop value => (value, false)
  | token :: tokens =>
    match Step.ofToken levels phase token with
    | .next levels phase => build levels phase tokens
    | .done value => (value, !tokens.isEmpty)
    | .stop value => (value, false)

/-- The document of a text, and whether something follows it. -/
def ofText (t : Text) : Value × Bool := build [] .value (tokens t)

end ServerPages.Json
