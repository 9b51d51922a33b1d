/-! Text as a list of characters, measured in UTF-8 bytes. Searching, cutting and comparing that the
readers of this library share; comparisons that ignore case fold A-Z only. -/

namespace ServerPages

/-- Page text, character by character. -/
abbrev Text := List Char

namespace Text

def byteLength : Text → Nat
  | [] => 0
  | c :: rest => c.utf8Size + byteLength rest

/-- A-Z become a-z, all else stays -/
def lower (t : Text) : Text := t.map Char.toLower

def same (a b : Text) : Bool := a.lower == b.lower

def after? : (t start : Text) → Option Text
  | t, [] => some t
  | [], _ :: _ => none
  | c :: t, s :: start => if c = s then after? t start else none

theorem length_after? {t start rest : Text} (h : t.after? start = some rest) :
    rest.length + start.length = t.length := by
  induction start generalizing t with
  | nil => simp_all [after?]
  | cons s start ih =>
    cases t with
    | nil => simp [after?] at h
    | cons c t =>
      simp only [after?] at h
      split at h
      · have := ih h
        simp only [List.length_cons]
        omega
      · simp at h

def before? (t stop : Text) : Option Text := (after? t.reverse stop.reverse).map List.reverse

/-- The text before the first `mark` and the text after it. -/
def cut? (t mark : Text) : Option (Text × Text) :=
  match t with
  | [] => none
  | c :: rest =>
    match after? (c :: rest) mark with
    | some after => some ([], after)
    | none => (cut? rest mark).map fun (before, after) => (c :: before, after)

def holds (t mark : Text) : Bool := (t.cut? mark).isSome

/-- What follows each `mark`, from the first to the last. -/
def restsAfter (t mark : Text) : List Text :=
  match t with
  | [] => []
  | c :: rest =>
    match after? (c :: rest) mark with
    | some after => after :: restsAfter rest mark
    | none => restsAfter rest mark

theorem length_lt_of_mem_restsAfter {t mark rest : Text} (hm : mark ≠ [])
    (h : rest ∈ t.restsAfter mark) : rest.length < t.length := by
  induction t with
  | nil => simp [restsAfter] at h
  | cons c t ih =>
    have hpos := List.length_pos_iff.2 hm
    simp only [restsAfter] at h
    split at h
    · next after ha =>
      have := length_after? ha
      rcases List.mem_cons.1 h with rfl | h
      · omega
      · have := ih h
        simp only [List.length_cons]
        omega
    · have := ih h
      simp only [List.length_cons]
      omega

/-- The part of `t` in front of its suffix `rest`. -/
def upTo (t rest : Text) : Text := t.take (t.length - rest.length)

/-- The text from byte `n` on, unless `n` lies past the end or inside a character. -/
def dropBytes? : Nat → Text → Option Text
  | 0, t => some t
  | _ + 1, [] => none
  | n + 1, c :: rest => if c.utf8Size ≤ n + 1 then dropBytes? (n + 1 - c.utf8Size) rest else none

/-- The first `n` bytes, unless they pass the end or split a character. -/
def takeBytes? : Nat → Text → Option Text
  | 0, _ => some []
  | _ + 1, [] => none
  | n + 1, c :: rest =>
    if c.utf8Size ≤ n + 1 then (takeBytes? (n + 1 - c.utf8Size) rest).map (c :: ·) else none

/-- The pieces between the separators, one more than there are separators. -/
def split (t : Text) (separator : Char) : List Text :=
  match t with
  | [] => [[]]
  | c :: rest =>
    if c = separator then [] :: split rest separator
    else
      match split rest separator with
      | [] => [[c]]
      | piece :: pieces => (c :: piece) :: pieces

def join (separator : Text) : List Text → Text
  | [] => []
  | [piece] => piece
  | piece :: pieces => piece ++ separator ++ join separator pieces

def ofNat (n : Nat) : Text := Nat.toDigits 10 n

def inRanges (ranges : List (Nat × Nat)) (n : Nat) : Bool :=
  ranges.any fun (low, high) => low ≤ n && n ≤ high

end Text

end ServerPages
