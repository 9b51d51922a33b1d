import ServerPages.Text.Basic

/-! Comments in a configuration: `//` up to the end of the line and `/* … */`, outside strings. -/

namespace ServerPages.Comment

inductive Place where
  | plain
  | string
  | line
  | block
  deriving DecidableEq, Repr

def removeFrom : Place → Text → Text
  | _, [] => []
  | .plain, '\x22' :: t => '\x22' :: removeFrom .string t
  | .plain, '/' :: '/' :: t => removeFrom .line t
  | .plain, '/' :: '*' :: t => removeFrom .block t
  | .plain, c :: t => c :: removeFrom .plain t
  | .string, '\x22' :: t => '\x22' :: removeFrom .plain t
  | .string, '\\' :: c :: t => '\\' :: c :: removeFrom .string t
  | .string, c :: t => c :: removeFrom .string t
  | .line, '\n' :: t => '\n' :: removeFrom .plain t
  | .line, _ :: t => removeFrom .line t
  | .block, '*' :: '/' :: t => removeFrom .plain t
  | .block, _ :: t => removeFrom .block t

def remove (t : Text) : Text := removeFrom .plain t

end ServerPages.Comment
