import ServerPages.Text.Basic

/-! UTF-8: the bytes of a text, and the characters of bytes that need not all be valid. Bytes that
begin like a character and do not go on like one are one invalid part, as far as they are alike. -/

namespace ServerPages

abbrev Bytes := List UInt8

def Text.bytes (t : Text) : Bytes := t.flatMap String.utf8EncodeChar

namespace Utf8

/-- A character of which the first bytes are known. -/
structure Pending where
  /-- the bits known so far -/
  bits : Nat
  /-- the least and the greatest byte that may come next -/
  low : Nat
  high : Nat
  /-- how many bytes follow the next one -/
  further : Nat
  deriving DecidableEq, Repr

/-- What a byte brings: the characters (or invalid parts) that end, and the character left open. -/
abbrev Progress := List (Option Char) × Option Pending

/-- A byte where a character is to begin. Overlong forms, surrogates and code points above the last
one are ruled out by the bounds of the second byte. -/
def begin (b : Nat) : Progress :=
  if b < 0x80 then ([some (Char.ofNat b)], none)
  else if b < 0xC2 then ([none], none)
  else if b < 0xE0 then ([], some ⟨b - 0xC0, 0x80, 0xBF, 0⟩)
  else if b < 0xF0 then
    ([], some ⟨b - 0xE0, if b = 0xE0 then 0xA0 else 0x80, if b = 0xED then 0x9F else 0xBF, 1⟩)
  else if b < 0xF5 then
    ([], some ⟨b - 0xF0, if b = 0xF0 then 0x90 else 0x80, if b = 0xF4 then 0x8F else 0xBF, 2⟩)
  else ([none], none)

def feed (pending : Option Pending) (b : Nat) : Progress :=
  match pending with
  | none => begin b
  | some p =>
    if p.low ≤ b ∧ b ≤ p.high then
      let bits := p.bits * 64 + (b - 0x80)
      match p.further with
      | 0 => ([some (Char.ofNat bits)], none)
      | further + 1 => ([], some ⟨bits, 0x80, 0xBF, further⟩)
    else
      let (parts, pending) := begin b
      (none :: parts, pending)

/-- The characters of some bytes, with `none` for each invalid part. -/
def decode (pending : Option Pending) : Bytes → List (Option Char)
  | [] => if pending.isSome then [none] else []
  | b :: rest =>
    let (parts, pending) := feed pending b.toNat
    parts ++ decode pending rest

def text? (bytes : Bytes) : Option Text := (decode none bytes).mapM id

def lossy (bytes : Bytes) : Text := (decode none bytes).map (·.getD (Char.ofNat 0xFFFD))

def valid (bytes : Bytes) : Text := (decode none bytes).takeWhile Option.isSome |>.filterMap id

end Utf8

end ServerPages
