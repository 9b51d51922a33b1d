import ServerPages.Text.Basic

/-! Lines of a text. A line feed ends a line, with the carriage return before it. -/

namespace ServerPages.Text

def stripReturn (line : Text) : Text := (line.before? ['\r']).getD line

/-- The lines of some pieces between line feeds. After the last line feed there is a line only if
there is text, and no line feed takes a carriage return from it. -/
def linesOf : List Text → List Text
  | [] => []
  | [[]] => []
  | [last] => [last]
  | piece :: pieces => stripReturn piece :: linesOf pieces

def lines (t : Text) : List Text := linesOf (t.split '\n')

end ServerPages.Text
