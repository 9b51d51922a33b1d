import ServerPages.Source.Location

/-! The line index of a text: a table of the offsets where lines start. A position is found by
bisecting the table; only a line feed ends a line. -/

namespace ServerPages

structure LineIndex where
  starts : Array Nat
  length : Nat
  deriving Repr

namespace LineIndex

/-- The offsets just after the line feeds of a text that starts at `offset`. -/
def startsAfter (offset : Nat) : Text → List Nat
  | [] => []
  | c :: rest =>
    if c = '\n' then (offset + 1) :: startsAfter (offset + 1) rest
    else startsAfter (offset + c.utf8Size) rest

def ofText (t : Text) : LineIndex := ⟨(0 :: startsAfter 0 t).toArray, t.byteLength⟩

def lineCount (index : LineIndex) : Nat := index.starts.size

/-- The number of entries of an increasing table, among those from `low` up to `high`, after which
`offset` is to be sought: every entry before the answer is at most `offset`, every later one above. -/
def bisect (table : Array Nat) (offset low high : Nat) : Nat :=
  if low < high then
    let middle := (low + high) / 2
    if table.getD middle 0 ≤ offset then bisect table offset (middle + 1) high
    else bisect table offset low middle
  else low
termination_by high - low

/-- Line and column of a byte offset; an offset past the end counts as the end. -/
def position (index : LineIndex) (offset : Nat) : Position :=
  let offset := min offset index.length
  let line := bisect index.starts offset 0 index.starts.size
  ⟨line, offset - index.starts.getD (line - 1) 0⟩

def lineStart? (index : LineIndex) : Nat → Option Nat
  | 0 => none
  | line + 1 => index.starts[line]?

def locate (index : LineIndex) (path : Text) (s : Span) : Location :=
  ⟨path, index.position s.start, index.position s.stop⟩

end LineIndex

end ServerPages
