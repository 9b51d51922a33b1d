import ServerPages.Markup.Attribute
import ServerPages.Text.Word

/-! Opening and closing tags as they are written. An opening tag is a name, attributes each after
white space, and `>` or `/>`; if the first end of a binding value does not lead to a complete tag, a
later end is tried. A tag that is not complete can still ask for `runat="server"`. -/

namespace ServerPages.Tag

def isNameChar (c : Char) : Bool := Text.isWord c || [':', '.', '-'].contains c

def isPartChar (c : Char) : Bool := Text.isWord c || ['.', '-'].contains c

structure Ending where
  /-- what follows the last attribute -/
  attributesRest : Text
  selfClosing : Bool
  /-- what follows the tag -/
  rest : Text
  deriving DecidableEq, Repr

/-- The first way to complete a tag whose name or attribute was just read. -/
def ending? (t : Text) : Option Ending :=
  match t.trimStart with
  | '>' :: rest => some ⟨t, false, rest⟩
  | '/' :: '>' :: rest => some ⟨t, true, rest⟩
  | c :: cs =>
    if _h : (c :: cs).length < t.length ∧ Attribute.isNameChar c then
      match _hv : Attribute.valueStart? (cs.dropWhile Attribute.isNameChar) with
      | none => ending? (cs.dropWhile Attribute.isNameChar)
      | some start => (AttributeValue.rests start).attach.findSome? fun r => ending? r.1
    else none
  | [] => none
termination_by t.length
decreasing_by
  all_goals
    have hd := (List.dropWhile_suffix (l := cs) Attribute.isNameChar).length_le
    have ht := ‹_ ∧ _›.1
    simp only [List.length_cons] at ht
  · omega
  · have hv := Attribute.length_valueStart? ‹Attribute.valueStart? _ = _›
    have hr := AttributeValue.length_lt_of_mem_rests r.2
    omega

/-- The name and the rest of a complete closing tag, given what follows `</`. -/
def closing? (t : Text) : Option (Text × Text) :=
  match t.takeWhile isNameChar, Text.trimStart (t.dropWhile isNameChar) with
  | c :: name, '>' :: rest => some (c :: name, rest)
  | _, _ => none

/-- What follows `word`, when the text begins with it in any case; a long s counts as an s. -/
def afterWord? : (t word : Text) → Option Text
  | t, [] => some t
  | [], _ :: _ => none
  | c :: t, w :: word =>
    if c.toLower = w || (w = 's' && c = '\u017f') then afterWord? t word else none

/-- Whether the text begins with `runat=server`, blanks and an opening quote allowed. With
`wholeWord`, no word character may follow. -/
def asksForServer (wholeWord : Bool) (t : Text) : Bool :=
  match Text.trimStart <$> afterWord? t ['r', 'u', 'n', 'a', 't'] with
  | some ('=' :: value) =>
    match afterWord? (AttributeValue.dropQuote (Text.trimStart value))
        ['s', 'e', 'r', 'v', 'e', 'r'] with
    | some rest => !(wholeWord && (rest.head?.map Text.isWord).getD false)
    | none => false
  | _ => false

/-- The index of the last `runat=server` that starts a word; `previous` stands before the text. -/
def lastRunat? (wholeWord : Bool) (previous : Char) : Text → Option Nat
  | [] => none
  | c :: t =>
    match lastRunat? wholeWord c t with
    | some i => some (i + 1)
    | none =>
      if !Text.isWord previous && asksForServer wholeWord (c :: t) then some 0 else none

/-- The name of a tag that asks for `runat=server` after it but is not written as a tag should be:
as much of the leading name as leaves the request to follow. -/
def runatName? (wholeWord : Bool) (previous : Char) (inside : Text) : Option Text :=
  match lastRunat? wholeWord previous inside with
  | some last =>
    match (inside.takeWhile isNameChar).take last with
    | [] => none
    | name => some name
  | none => none

def inside (t : Text) : Text := t.takeWhile fun c => c != '<' && c != '>'

def prefixedName? (t : Text) : Option Text :=
  match t.takeWhile isPartChar, t.dropWhile isPartChar with
  | c :: scope, ':' :: rest =>
    match rest.takeWhile isPartChar with
    | [] => none
    | name => some (c :: scope ++ ':' :: name)
  | _, _ => none

end ServerPages.Tag
