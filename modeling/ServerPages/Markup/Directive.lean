import ServerPages.Markup.Attribute
import ServerPages.Text.Word

/-! The body of a directive `<%@ … %>`: a name unless the first word is an attribute, attributes
that need no space between them, and text that is neither. -/

namespace ServerPages

structure DirectiveBody where
  name : Option Text
  attributes : List Attribute
  /-- text that is no attribute -/
  leftover : Option Fragment
  deriving DecidableEq, Repr

namespace DirectiveBody

def isNameChar (c : Char) : Bool := Text.isWord c || c == '.'

/-- The word that starts the body and what follows it, when the word stands on its own. -/
def name? (body : Text) : Option (Text × Text) :=
  let word := body.trimStart.takeWhile isNameChar
  let rest := body.trimStart.dropWhile isNameChar
  if word.isEmpty || !(rest.head?.map Text.isSpace).getD true ||
      (Text.trimStart rest).head? == some '=' then none
  else some (word, rest)

def trimmed (f : Fragment) : Fragment :=
  ⟨(f.skipTo f.text.trimStart).offset, f.text.trim⟩

def read (start : Fragment) : DirectiveBody :=
  let named := name? start.text
  let rest := (named.map Prod.snd).getD start.text
  let (attributes, left) := Attribute.readAll false (start.skipTo rest)
  let leftover := trimmed left
  ⟨named.map Prod.fst, attributes, if leftover.text.isEmpty then none else some leftover⟩

end DirectiveBody

end ServerPages
