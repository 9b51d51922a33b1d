import ServerPages.Text.Basic

/-! Byte ranges of a page and the pieces of text that stand there. A fragment knows its text and
where it starts; its span follows from them. -/

namespace ServerPages

/-- Offsets are kept in words of 32 bits. -/
def wordSize : Nat := 0x100000000

structure Span where
  start : Nat
  stop : Nat
  deriving DecidableEq, Repr

namespace Span

/-- The span as it is kept, its ends cut to words. -/
def stored (s : Span) : Span := ⟨s.start % wordSize, s.stop % wordSize⟩

def empty (offset : Nat) : Span := ⟨offset, offset⟩

def isEmpty (s : Span) : Bool := s.start == s.stop

def length? (s : Span) : Option Nat := if s.start ≤ s.stop then some (s.stop - s.start) else none

/-- The text of `source` at the span; empty where the span names no text. -/
def text (s : Span) (source : Text) : Text :=
  match source.dropBytes? s.start, s.length? with
  | some rest, some n => (rest.takeBytes? n).getD []
  | _, _ => []

def cover (s other : Span) : Span := ⟨min s.start other.start, max s.stop other.stop⟩

def forward? (s : Span) : Option Span := if s.start ≤ s.stop then some s else none

end Span

structure Fragment where
  offset : Nat
  text : Text
  deriving DecidableEq, Repr

namespace Fragment

def span (f : Fragment) : Span := ⟨f.offset, f.offset + f.text.byteLength⟩

/-- What is left of a fragment from its suffix `rest` on. -/
def skipTo (f : Fragment) (rest : Text) : Fragment :=
  ⟨f.offset + (f.text.upTo rest).byteLength, rest⟩

end Fragment

end ServerPages
