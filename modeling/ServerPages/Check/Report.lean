import ServerPages.Check.Options
import ServerPages.Json.Pretty
import ServerPages.Page.Basic
import ServerPages.Text.Lines

/-! Reports: the problems of a file in each output format, and the summary of a check. Columns are
shown as people count them, from 1. -/

namespace ServerPages

def Position.shown (p : Position) : Text := Text.ofNat p.line ++ ':' :: Text.ofNat p.shownColumn

def Position.json (p : Position) : Json.Output :=
  .object [("line", .number p.line), ("column", .number p.shownColumn)]

namespace PageError

def headline (path : Text) (e : PageError) : Text :=
  path ++ ':' :: e.location.start.shown ++ "\nError: ".toList ++ e.message ++ ['\n']

def human (path : Text) (e : PageError) : Text := e.headline path ++ ['\n']

/-- The line a problem is in, and below it a mark under the column where it starts. -/
def snippet (line : Text) (e : PageError) : Text :=
  let number := Text.ofNat e.location.start.line
  let gutter (shown : Text) : Text := "  ".toList ++ shown ++ " | ".toList
  gutter number ++ line ++ '\n' :: gutter (List.replicate number.length ' ') ++
    List.replicate e.location.start.column ' ' ++ "^\n".toList

/-- A problem with the line it is in, when there is such a line. -/
def verbose (path : Text) (lines : List Text) (e : PageError) : Text :=
  e.headline path ++
    (match lines[e.location.start.line - 1]? with
      | some line => e.snippet line
      | none => []) ++
    ['\n']

def machine (path : Text) (e : PageError) : Text :=
  "ERROR ".toList ++ path ++ ':' :: e.location.start.shown ++ ':' :: e.location.stop.shown ++
    ' ' :: e.message ++ ['\n']

def json (path : Text) (e : PageError) : Json.Output :=
  .object [("type", .text "Error".toList), ("filename", .text path),
    ("start", e.location.start.json), ("end", e.location.stop.json), ("message", .text e.message)]

end PageError

def OutputFormat.render (format : OutputFormat) (path source : Text) (errors : List PageError) :
    Text :=
  match format with
  | .human => errors.flatMap (·.human path)
  | .humanVerbose => errors.flatMap (·.verbose path source.lines)
  | .json => (Json.Output.list (errors.map (·.json path))).render
  | .machine => errors.flatMap (·.machine path)

structure Summary where
  files : Nat
  failedFiles : Nat
  errors : Nat
  deriving DecidableEq, Repr

namespace Summary

def failed (s : Summary) : Bool := s.errors > 0

def counted (n : Nat) (one several : String) : Text :=
  Text.ofNat n ++ ' ' :: (if n = 1 then one else several).toList

def text (s : Summary) : Text :=
  "====================================\naspx-check found ".toList ++
    counted s.errors "error" "errors" ++ " in ".toList ++ Text.ofNat s.failedFiles ++
    " of ".toList ++ counted s.files "file" "files"

end Summary

end ServerPages
