import ServerPages.Glob.Pattern
import ServerPages.Text.Utf8

/-! What a glob matches. A piece matches the front of some bytes in several ways; each way is given
by the bytes it leaves. A glob matches a path when one of the ways through all its pieces leaves
nothing. -/

namespace ServerPages.Glob

def afterBytes : (front bytes : Bytes) → List Bytes
  | [], bytes => [bytes]
  | _ :: _, [] => []
  | a :: front, b :: bytes => if a = b then afterBytes front bytes else []

def slash : UInt8 := 0x2F

def afterSlashes : Bytes → List Bytes
  | [] => []
  | b :: rest => if b = slash then rest :: afterSlashes rest else afterSlashes rest

def tails : Bytes → List Bytes
  | [] => [[]]
  | b :: rest => (b :: rest) :: tails rest

/-- The byte ranges of a character range. Only the last byte of its low end and the first of its
high end span a range, the bytes beside them stand for themselves. -/
def byteRanges (range : Char × Char) : List (UInt8 × UInt8) :=
  let low := String.utf8EncodeChar range.1
  let high := String.utf8EncodeChar range.2
  let single (b : UInt8) : UInt8 × UInt8 := (b, b)
  if range.1 = range.2 then low.map single
  else
    low.dropLast.map single ++ [(low.getLastD 0, high.headD 0)] ++ high.tail.map single

def inClass (negated : Bool) (ranges : List (Char × Char)) (b : UInt8) : Bool :=
  (ranges.flatMap byteRanges).any (fun (low, high) => low ≤ b && b ≤ high) != negated

mutual

/-- What a piece may leave of some bytes. -/
def Piece.rests : Piece → Bytes → List Bytes
  | .literal c, bytes => afterBytes (String.utf8EncodeChar c) bytes
  | .any, bytes => bytes.tail?.toList
  | .star, bytes => tails bytes
  | .anyFolders, bytes => bytes :: afterSlashes bytes
  | .innerFolders, bytes =>
    (afterBytes [slash] bytes).flatMap fun rest => rest :: afterSlashes rest
  | .inside, bytes => (afterBytes [slash] bytes).flatMap tails
  | .oneOf negated ranges, bytes =>
    match bytes with
    | [] => []
    | b :: rest => if inClass negated ranges b then [rest] else []
  | .choice [], bytes => [bytes]
  | .choice (branch :: branches), bytes =>
    restsAfter branch [bytes] ++ restsOfAny branches bytes

def restsAfter : List Piece → List Bytes → List Bytes
  | [], rests => rests
  | piece :: pieces, rests => restsAfter pieces (rests.flatMap piece.rests).eraseDups

def restsOfAny : List (List Piece) → Bytes → List Bytes
  | [], _ => []
  | branch :: branches, bytes => restsAfter branch [bytes] ++ restsOfAny branches bytes

end

end Glob

def Glob.covers (glob : Glob) (path : Text) : Bool :=
  (Glob.restsAfter glob.pieces [path.bytes]).contains []

structure IgnoreSet where
  globs : List Glob
  deriving Repr

namespace IgnoreSet

/-- Folders whose files are never pages. -/
def always : List Text := ["**/bin/**", "**/obj/**", "**/node_modules/**"].map String.toList

/-- The set for some patterns, or the first of them that cannot be read. -/
def ofPatterns (patterns : List Text) : Except Glob.Invalid IgnoreSet := do
  return ⟨← (patterns ++ always).mapM Glob.ofText⟩

def contains (set : IgnoreSet) (path : Text) : Bool := set.globs.any (·.covers path)

end IgnoreSet

end ServerPages
