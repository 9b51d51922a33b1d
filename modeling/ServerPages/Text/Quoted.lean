import ServerPages.Text.Printable

/-! Quoted text for listings: double quotes around it, the common controls, quotes and backslashes
escaped by a letter, and characters that do not show on their own by number. -/

namespace ServerPages.Text

def escape (c : Char) : Text :=
  if c.toNat = 0 then ['\\', '0']
  else if c = '\t' then ['\\', 't']
  else if c = '\r' then ['\\', 'r']
  else if c = '\n' then ['\\', 'n']
  else if c = '\x22' then ['\\', '\x22']
  else if c = '\\' then ['\\', '\\']
  else if isPrintable c then [c]
  else ['\\', 'u', '\x7b'] ++ Nat.toDigits 16 c.toNat ++ ['\x7d']

def quote (t : Text) : Text := '\x22' :: t.flatMap escape ++ ['\x22']

end ServerPages.Text
