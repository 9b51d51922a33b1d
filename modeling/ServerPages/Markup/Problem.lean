import ServerPages.Source.Span

/-! What can be wrong with the markup of a page, the wording of each defect, and problems: a defect
and the span it is found at. -/

namespace ServerPages

inductive Defect where
  | unclosedTag (name : Text)
  /-- a closing tag with a prefix that closes nothing -/
  | unexpectedClosingTag (name : Text)
  | runatOnClosingTag (name : Text)
  /-- a server tag that starts and is not completed -/
  | malformedServerTag (name : Text)
  /-- an attribute of a server tag that holds a code block other than a binding -/
  | codeInServerTag (name : Text)
  | duplicateAttribute (name : Text)
  /-- directive text that is no attribute -/
  | malformedDirective (text : Text)
  | nestedDirective (name element : Text)
  | unterminatedDirective
  | unterminatedComment
  | unterminatedCode
  /-- `%>` in plain text -/
  | strayEnd
  deriving DecidableEq, Repr

def Defect.message : Defect → Text
  | .unclosedTag name => "unclosed tag: <".toList ++ name ++ ['>']
  | .unexpectedClosingTag name => "unexpected closing tag: </".toList ++ name ++ ['>']
  | .runatOnClosingTag name =>
    "runat is not allowed on a closing tag: </".toList ++ name ++ ['>']
  | .malformedServerTag name => "malformed server tag: <".toList ++ name
  | .codeInServerTag name =>
    "server tag attribute cannot contain a code block: ".toList ++ name
  | .duplicateAttribute name => "duplicate attribute: ".toList ++ name
  | .malformedDirective text => "malformed directive attribute syntax: ".toList ++ text
  | .nestedDirective name element =>
    "invalid directive: <%@ ".toList ++ name ++
      " %> must appear at the top level, not inside <".toList ++ element ++ ['>']
  | .unterminatedDirective => "unterminated directive".toList
  | .unterminatedComment => "unterminated comment".toList
  | .unterminatedCode => "unterminated code block".toList
  | .strayEnd => "unexpected '%>'".toList

structure Problem where
  defect : Defect
  span : Span
  deriving DecidableEq, Repr

end ServerPages
