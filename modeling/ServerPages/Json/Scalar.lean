import ServerPages.Text.Basic

/-! Strings and numbers of a JSON text. A text is read from left to right and the first fault
counts. Where a value is only skipped less is asked of it: an unpaired surrogate passes, and so does
a number beyond the range of a double. -/

namespace ServerPages.Json

inductive Fault where
  | ended
  | malformed
  | shape
  deriving DecidableEq, Repr

def isDigit (c : Char) : Bool := '0' ≤ c && c ≤ '9'

def hexDigit? (c : Char) : Option Nat :=
  if isDigit c then some (c.toNat - '0'.toNat)
  else if 'a' ≤ c && c ≤ 'f' then some (c.toNat - 'a'.toNat + 10)
  else if 'A' ≤ c && c ≤ 'F' then some (c.toNat - 'A'.toNat + 10)
  else none

/-- Four hexadecimal digits and what follows; with less than four bytes left the text has ended. -/
def hexUnit (t : Text) : Except Fault (Nat × Text) :=
  match t with
  | a :: b :: c :: d :: rest =>
    match hexDigit? a, hexDigit? b, hexDigit? c, hexDigit? d with
    | some a, some b, some c, some d => .ok (((a * 16 + b) * 16 + c) * 16 + d, rest)
    | _, _, _, _ => .error .malformed
  | _ => .error (if t.byteLength < 4 then .ended else .malformed)

theorem length_hexUnit {t rest : Text} {n : Nat} (h : hexUnit t = .ok (n, rest)) :
    rest.length < t.length := by
  unfold hexUnit at h
  split at h
  · split at h
    · simp only [Except.ok.injEq, Prod.mk.injEq] at h
      obtain ⟨-, rfl⟩ := h
      simp only [List.length_cons]
      omega
    · simp at h
  · simp at h

def escaped? : Char → Option Char
  | '\x22' => some '\x22'
  | '\\' => some '\\'
  | '/' => some '/'
  | 'b' => some '\x08'
  | 'f' => some '\x0c'
  | 'n' => some '\n'
  | 'r' => some '\r'
  | 't' => some '\t'
  | _ => none

def isLeading (n : Nat) : Bool := 0xD800 ≤ n && n ≤ 0xDBFF

def isTrailing (n : Nat) : Bool := 0xDC00 ≤ n && n ≤ 0xDFFF

def skipString (t : Text) : Except Fault Text :=
  match t with
  | [] => .error .ended
  | '\x22' :: rest => .ok rest
  | ['\\'] => .error .ended
  | '\\' :: 'u' :: rest =>
    match _h : hexUnit rest with
    | .ok (_, rest) => skipString rest
    | .error fault => .error fault
  | '\\' :: e :: rest => if (escaped? e).isSome then skipString rest else .error .malformed
  | c :: rest => if c.toNat < 0x20 then .error .malformed else skipString rest
termination_by t.length
decreasing_by
  · have := length_hexUnit ‹_›
    simp only [List.length_cons]
    omega
  · simp only [List.length_cons]
    omega
  · simp only [List.length_cons]
    omega

theorem length_skipString {t rest : Text} (h : skipString t = .ok rest) :
    rest.length < t.length := by
  fun_induction skipString t with
  | case1 => simp at h
  | case2 => simp_all
  | case3 => simp at h
  | case4 r _ u hu ih =>
    have := length_hexUnit hu
    have := ih h
    simp only [List.length_cons]
    omega
  | case5 => simp at h
  | case6 e r _ _ ih =>
    have := ih h
    simp only [List.length_cons]
    omega
  | case7 => simp at h
  | case8 => simp at h
  | case9 c r _ _ _ _ _ ih =>
    have := ih h
    simp only [List.length_cons]
    omega

/-- The character of a `\u` escape, given the text after the `u`. A surrogate stands only in a pair. -/
def unicodeEscape (t : Text) : Except Fault (Char × Text) :=
  match hexUnit t with
  | .error fault => .error fault
  | .ok (n, rest) =>
    if isTrailing n then .error .malformed
    else if isLeading n then
      match rest with
      | [] => .error .ended
      | ['\\'] => .error .ended
      | '\\' :: 'u' :: rest =>
        match hexUnit rest with
        | .error fault => .error fault
        | .ok (m, rest) =>
          if isTrailing m then
            .ok (Char.ofNat (0x10000 + (n - 0xD800) * 0x400 + (m - 0xDC00)), rest)
          else .error .malformed
      | _ => .error .malformed
    else .ok (Char.ofNat n, rest)

theorem length_unicodeEscape {t rest : Text} {c : Char} (h : unicodeEscape t = .ok (c, rest)) :
    rest.length < t.length := by
  unfold unicodeEscape at h
  split at h
  · cases h
  · next n after hn =>
    have hafter := length_hexUnit hn
    split at h
    · cases h
    · split at h
      · split at h
        · cases h
        · cases h
        · next pair =>
          split at h
          · cases h
          · next m last hm =>
            have hlast := length_hexUnit hm
            split at h
            · simp only [Except.ok.injEq, Prod.mk.injEq] at h
              obtain ⟨-, rfl⟩ := h
              simp only [List.length_cons] at hafter
              omega
            · cases h
        · cases h
      · simp only [Except.ok.injEq, Prod.mk.injEq] at h
        obtain ⟨-, rfl⟩ := h
        exact hafter

def readString (t : Text) : Except Fault Text :=
  match t with
  | [] => .error .ended
  | '\x22' :: _ => .ok []
  | ['\\'] => .error .ended
  | '\\' :: 'u' :: rest =>
    match _h : unicodeEscape rest with
    | .error fault => .error fault
    | .ok (c, rest) => (readString rest).map (c :: ·)
  | '\\' :: e :: rest =>
    match escaped? e with
    | some c => (readString rest).map (c :: ·)
    | none => .error .malformed
  | c :: rest =>
    if c.toNat < 0x20 then .error .malformed else (readString rest).map (c :: ·)
termination_by t.length
decreasing_by
  · have := length_unicodeEscape ‹_›
    simp only [List.length_cons]
    omega
  · simp only [List.length_cons]
    omega
  · simp only [List.length_cons]
    omega

/-- The nearest number with 53 significant bits, a tie going to the even one. -/
def roundDouble (n : Nat) : Nat :=
  let unit := 1 <<< (Nat.log2 n - 52)
  let low := n / unit
  let rest := n % unit
  if unit < 2 * rest || (unit == 2 * rest && low % 2 == 1) then (low + 1) * unit else low * unit

/-- whether `significand * 10 ^ exponent`, computed in doubles, leaves their range -/
def outOfRange (significand : Nat) (exponent : Int) : Bool :=
  significand != 0 && 0 ≤ exponent &&
    (308 < exponent || 1 <<< 1024 ≤
      roundDouble (roundDouble significand * roundDouble (Nat.pow 10 exponent.toNat)))

/-- Digits added to a significand as long as it fits in 64 bits; how many were added. -/
def addDigits (significand : Nat) : Text → Nat × Nat
  | [] => (significand, 0)
  | c :: digits =>
    let next := significand * 10 + (c.toNat - '0'.toNat)
    if next < 1 <<< 64 then
      let (significand, added) := addDigits next digits
      (significand, added + 1)
    else (significand, 0)

/-- The value of an exponent's digits; none where it leaves 31 bits. -/
def exponentValue? (digits : Text) : Option Nat :=
  digits.foldl (fun value c => value.bind fun value =>
    let next := value * 10 + (c.toNat - '0'.toNat)
    if next < 1 <<< 31 then some next else none) (some 0)

structure Number where
  whole : Text
  fraction : Text
  exponent : Option (Bool × Text)
  deriving DecidableEq, Repr

def Number.isHuge (n : Number) : Bool :=
  let (significand, added) := addDigits 0 n.whole
  let dropped := n.whole.length - added
  let (significand, added) := addDigits significand n.fraction
  let start : Int := (dropped : Int) - added
  match n.exponent with
  | none => outOfRange significand start
  | some (positive, digits) =>
    match exponentValue? digits with
    | none => positive && significand != 0
    | some value => outOfRange significand (if positive then start + value else start - value)

/-- What comes of reading a number: the fault if it is read as a value, the fault if it is skipped,
and what follows it. -/
structure NumberScan where
  read : Option Fault
  skipped : Option Fault
  rest : Text
  deriving DecidableEq, Repr

namespace NumberScan

def missing (t : Text) : NumberScan :=
  ⟨some (if t.isEmpty then .ended else .malformed), some .malformed, t⟩

def complete (n : Number) (rest : Text) : NumberScan :=
  ⟨if n.isHuge then some .malformed else none, none, rest⟩

def exponentDigits (whole fraction : Text) (positive : Bool) (t : Text) : NumberScan :=
  let digits := t.takeWhile isDigit
  if digits.isEmpty then missing t
  else complete ⟨whole, fraction, some (positive, digits)⟩ (t.dropWhile isDigit)

def exponent (whole fraction : Text) (t : Text) : NumberScan :=
  if t.head? == some 'e' || t.head? == some 'E' then
    match t.tail with
    | '+' :: t => exponentDigits whole fraction true t
    | '-' :: t => exponentDigits whole fraction false t
    | t => exponentDigits whole fraction true t
  else complete ⟨whole, fraction, none⟩ t

def fraction (whole : Text) (t : Text) : NumberScan :=
  match t with
  | '.' :: t =>
    let digits := t.takeWhile isDigit
    if digits.isEmpty then missing t else exponent whole digits (t.dropWhile isDigit)
  | t => exponent whole [] t

def ofText (t : Text) : NumberScan :=
  let whole := t.takeWhile isDigit
  let rest := t.dropWhile isDigit
  if whole.isEmpty then missing t
  else if whole.head? == some '0' && 1 < whole.length then
    ⟨some .malformed, some .malformed, rest⟩
  else fraction whole rest

theorem length_exponentDigits_le (whole fraction : Text) (positive : Bool) (t : Text) :
    (exponentDigits whole fraction positive t).rest.length ≤ t.length := by
  simp only [exponentDigits]
  split
  · exact Nat.le_refl _
  · exact (List.dropWhile_suffix isDigit).length_le

theorem length_exponent_le (whole fraction t : Text) :
    (exponent whole fraction t).rest.length ≤ t.length := by
  have htail : t.tail.length ≤ t.length := by simp
  have hdigits := length_exponentDigits_le whole fraction
  unfold exponent
  split
  · split
    · next u hu =>
      have := hdigits true u
      simp only [hu, List.length_cons] at htail
      omega
    · next u hu =>
      have := hdigits false u
      simp only [hu, List.length_cons] at htail
      omega
    · have := hdigits true t.tail
      omega
  · exact Nat.le_refl _

theorem length_fraction_le (whole t : Text) : (fraction whole t).rest.length ≤ t.length := by
  unfold fraction
  split
  · next u =>
    have hle := (List.dropWhile_suffix (l := u) isDigit).length_le
    have := length_exponent_le whole (u.takeWhile isDigit) (u.dropWhile isDigit)
    simp only [List.length_cons]
    split
    · exact Nat.le_succ _
    · omega
  · exact length_exponent_le _ _ _

/-- A number takes up at least its leading digits. -/
theorem length_ofText_le (t : Text) : (ofText t).rest.length ≤ (t.dropWhile isDigit).length := by
  simp only [ofText]
  split
  · next hnil =>
    have := List.takeWhile_append_dropWhile (p := isDigit) (l := t)
    rw [List.isEmpty_iff.1 hnil, List.nil_append] at this
    simp [missing, this]
  · split
    · exact Nat.le_refl _
    · exact length_fraction_le _ _

end NumberScan

end ServerPages.Json
