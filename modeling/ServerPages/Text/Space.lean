import ServerPages.Text.Basic

/-! White space: the blanks, tabs, line ends and separators that may stand between the parts of a
tag and around a value. -/

namespace ServerPages.Text

def spaceRanges : List (Nat × Nat) :=
  [(0x85, 0x85), (0xA0, 0xA0), (0x1680, 0x1680), (0x2000, 0x200A), (0x2028, 0x2029),
   (0x202F, 0x202F), (0x205F, 0x205F), (0x3000, 0x3000)]

/-- blanks, tabs, line ends and separators -/
def isSpace (c : Char) : Bool :=
  if c.toNat < 0x80 then c.toNat == 0x20 || (9 ≤ c.toNat && c.toNat ≤ 13)
  else inRanges spaceRanges c.toNat

def trimStart (t : Text) : Text := t.dropWhile isSpace

theorem length_trimStart_le (t : Text) : t.trimStart.length ≤ t.length :=
  (List.dropWhile_suffix isSpace).length_le

def trimEnd (t : Text) : Text := (trimStart t.reverse).reverse

def trim (t : Text) : Text := t.trimStart.trimEnd

end ServerPages.Text
