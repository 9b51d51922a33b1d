import ServerPages.Text.Basic

/-! JSON written for people: a value a line, two blanks deeper in each list or object. -/

namespace ServerPages.Json

inductive Output where
  | number (n : Nat)
  | text (t : Text)
  | list (items : List Output)
  | object (members : List (String × Output))
  deriving Repr

/-- One character as it stands inside a string. Only quotes, backslashes and controls are escaped. -/
def escape (c : Char) : Text :=
  if c = '\x22' then ['\\', '\x22']
  else if c = '\\' then ['\\', '\\']
  else if c = '\x08' then ['\\', 'b']
  else if c = '\x0c' then ['\\', 'f']
  else if c = '\n' then ['\\', 'n']
  else if c = '\r' then ['\\', 'r']
  else if c = '\t' then ['\\', 't']
  else if c.toNat < 0x20 then
    ['\\', 'u', '0', '0', Nat.digitChar (c.toNat / 16), Nat.digitChar (c.toNat % 16)]
  else [c]

def quote (t : Text) : Text := '\x22' :: t.flatMap escape ++ ['\x22']

def newLine (depth : Nat) : Text := '\n' :: List.replicate (2 * depth) ' '

def separator (first : Bool) : Text := if first then [] else [',']

namespace Output

mutual

def pretty (depth : Nat) : Output → Text
  | .number n => Text.ofNat n
  | .text t => quote t
  | .list [] => ['[', ']']
  | .list (item :: items) =>
    '[' :: prettyItems (depth + 1) true (item :: items) ++ newLine depth ++ [']']
  | .object [] => ['\x7b', '\x7d']
  | .object (entry :: entries) =>
    '\x7b' :: prettyMembers (depth + 1) true (entry :: entries) ++ newLine depth ++ ['\x7d']

def prettyItems (depth : Nat) (first : Bool) : List Output → Text
  | [] => []
  | item :: items =>
    separator first ++ newLine depth ++ pretty depth item ++ prettyItems depth false items

def prettyMembers (depth : Nat) (first : Bool) : List (String × Output) → Text
  | [] => []
  | (name, value) :: entries =>
    separator first ++ newLine depth ++ quote name.toList ++ [':', ' '] ++ pretty depth value ++
      prettyMembers depth false entries

end

def render (value : Output) : Text := value.pretty 0

end Output

end ServerPages.Json
