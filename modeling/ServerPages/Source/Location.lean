import ServerPages.Source.Span

/-! Positions by line and column, and locations: two positions of one file. Two locations combine
only when they name the same file. -/

namespace ServerPages

/-- A line, counted from 1, and a column in bytes, counted from 0. -/
structure Position where
  line : Nat
  column : Nat
  deriving DecidableEq, Repr

namespace Position

def first : Position := ⟨1, 0⟩

def after (front : Text) : Position :=
  ⟨front.count '\n' + 1, Text.byteLength (front.reverse.takeWhile (· != '\n'))⟩

def le (a b : Position) : Bool := a.line < b.line || (a.line == b.line && a.column ≤ b.column)

/-- The column as people count it, from 1. -/
def shownColumn (p : Position) : Nat := (p.column + 1) % wordSize

def label (p : Position) : Text := Text.ofNat p.line ++ [':'] ++ Text.ofNat p.column

end Position

structure Location where
  path : Text
  start : Position
  stop : Position
  deriving DecidableEq, Repr

structure PathMismatch where
  first : Text
  second : Text
  deriving DecidableEq, Repr

def PathMismatch.message (m : PathMismatch) : Text :=
  "cannot combine locations from different files: `".toList ++ m.first ++ "` and `".toList ++
    m.second ++ "`".toList

namespace Location

def unset : Location := ⟨[], .first, .first⟩

/-- From the start of one location to the end of another in the same file. -/
def combine (a b : Location) : Except PathMismatch Location :=
  if a.path = b.path then .ok ⟨a.path, a.start, b.stop⟩ else .error ⟨a.path, b.path⟩

/-- `path(line,column)` of the start, the column counted from 1 -/
def label (l : Location) : Text :=
  l.path ++ ['('] ++ Text.ofNat l.start.line ++ [','] ++ Text.ofNat l.start.shownColumn ++ [')']

end Location

end ServerPages
