import Mathlib.Data.List.Forall2
import ServerPages.Check.Report
import ServerPages.Proofs.Pointing
import ServerPages.Proofs.SourceOrder

/-! Errors in one line. A message quotes names of the page, of tags, attributes and directives, and names
hold no line break; only directive text that is no attribute is quoted as it is written. So for machines an
error is printed in one line, unless it quotes such text with a line feed in it. -/

namespace ServerPages

def Text.InLine (t : Text) : Prop := ∀ c ∈ t, c ≠ '\n' ∧ c ≠ '\r'

instance (t : Text) : Decidable t.InLine := List.decidableBAll _ t

namespace Text

theorem InLine.notMem {t : Text} (h : t.InLine) : '\n' ∉ t := fun hmem => (h _ hmem).1 rfl

theorem InLine.append {a b : Text} (ha : a.InLine) (hb : b.InLine) : (a ++ b).InLine :=
  fun c hc => (List.mem_append.1 hc).elim (ha c) (hb c)

theorem inLine_of_class {p : Char → Bool} {t : Text} (h : t.all p = true) (hfeed : p '\n' = false)
    (hreturn : p '\r' = false) : t.InLine := fun c hc =>
  ⟨ne_of_class (List.all_eq_true.1 h c hc) hfeed, ne_of_class (List.all_eq_true.1 h c hc) hreturn⟩

theorem notMem_ofNat (n : Nat) : '\n' ∉ ofNat n := by
  intro hmem
  rw [ofNat] at hmem
  have hdigit := Nat.isDigit_of_mem_toDigits (by decide) (by decide) hmem
  exact absurd hdigit (by decide)

end Text

/-- The names that a defect is about. -/
def Defect.names : Defect → List Text
  | .unclosedTag name | .unexpectedClosingTag name | .runatOnClosingTag name | .malformedServerTag name
  | .codeInServerTag name | .duplicateAttribute name => [name]
  | .nestedDirective name element => [name, element]
  | .malformedDirective _ | .unterminatedDirective | .unterminatedComment | .unterminatedCode
  | .strayEnd => []

section Messages

variable {defect : Defect} (h : ∀ name ∈ defect.names, name.InLine)
include h

/-- A message that quotes nothing but names is in one line when they are. -/
theorem Defect.inLine_message (hnames : ∀ text, defect ≠ .malformedDirective text) :
    defect.message.InLine := by
  cases defect with
  | unclosedTag name | unexpectedClosingTag name | runatOnClosingTag name =>
    exact .append (.append (by decide) (h name (List.mem_cons_self ..))) (by decide)
  | malformedServerTag name | codeInServerTag name | duplicateAttribute name =>
    exact .append (by decide) (h name (List.mem_cons_self ..))
  | nestedDirective name element =>
    have hopen : Text.InLine "invalid directive: <%@ ".toList := by decide
    have hname : name.InLine := h name (List.mem_cons_self ..)
    have hmiddle : Text.InLine " %> must appear at the top level, not inside <".toList := by decide
    have helement : element.InLine := h element (List.mem_cons_of_mem _ (List.mem_cons_self ..))
    have hclose : Text.InLine ['>'] := by decide
    exact (((hopen.append hname).append hmiddle).append helement).append hclose
  | malformedDirective text => exact absurd rfl (hnames text)
  | unterminatedDirective | unterminatedComment | unterminatedCode | strayEnd => decide

theorem Defect.mem_message_iff :
    '\n' ∈ defect.message ↔ ∃ text, defect = .malformedDirective text ∧ '\n' ∈ text := by
  by_cases hquotes : ∃ text, defect = .malformedDirective text
  · obtain ⟨text, rfl⟩ := hquotes
    have hlabel : '\n' ∉ "malformed directive attribute syntax: ".toList := by decide
    refine ⟨fun hmem => ⟨text, rfl, (List.mem_append.1 hmem).resolve_left hlabel⟩, ?_⟩
    rintro ⟨other, heq, htext⟩
    cases heq
    exact List.mem_append_right _ htext
  · refine iff_of_false (inLine_message h fun text heq => hquotes ⟨text, heq⟩).notMem ?_
    exact fun ⟨text, heq, _⟩ => hquotes ⟨text, heq⟩

end Messages

namespace Token

def name? : Token → Option Text
  | .openTag name _ _ | .closeTag name | .malformedServerTag name | .runatOnClosingTag name => some name
  | _ => none

end Token

namespace Lexeme

theorem name?_scanBlock (t : Text) : (scanBlock t).token.name? = none := by
  have hcode (body : Text) : (codeToken body).name? = none := by
    unfold codeToken
    split <;> rfl
  unfold scanBlock
  dsimp only
  repeat' split
  all_goals first | rfl | exact hcode _

theorem all_name_scanClosing {t name : Text} (h : (scanClosing t).token.name? = some name) :
    name.all Tag.isNameChar = true := by
  unfold scanClosing at h
  dsimp only at h
  split at h
  · next written rest hclosing =>
    cases h
    exact (Tag.closing?_eq_some hclosing).choose_spec.2.2.1
  · split at h
    · next written _ hrunat _ =>
      cases h
      exact Tag.isNameChar_of_runatName? hrunat
    · cases h

theorem all_name_scanOpening {t name : Text} (h : (scanOpening t).token.name? = some name) :
    name.all Tag.isNameChar = true := by
  unfold scanOpening at h
  dsimp only at h
  split at h
  · cases h
    exact List.all_takeWhile
  · split at h
    · next written hname =>
      cases h
      rcases Option.or_eq_some_iff.1 hname with hname | ⟨-, hname⟩
      · exact Tag.isNameChar_of_prefixedName? hname
      · exact Tag.isNameChar_of_runatName? hname
    · cases h

theorem all_name_scan {t name : Text} (h : (scan t).token.name? = some name) :
    name.all Tag.isNameChar = true := by
  rcases eq_or_ne t [] with rfl | ht
  · cases h
  rcases scan_cases ht with ⟨body, rfl, hscan⟩ | ⟨rest, rfl, hscan⟩ | ⟨rest, rfl, hscan⟩ | ⟨c, rest, -, rfl, hscan⟩
  · rw [hscan, name?_scanBlock] at h
    cases h
  · exact all_name_scanClosing (hscan ▸ h)
  · exact all_name_scanOpening (hscan ▸ h)
  · rw [hscan] at h
    cases h

end Lexeme

theorem Turn.inLine_name {turn : Turn} {name : Text} (h : turn.token.name? = some name) : name.InLine :=
  Text.inLine_of_class (Lexeme.all_name_scan h) (by decide) (by decide)

theorem Attribute.IsRead.inLine_name {a : Attribute} (h : a.IsRead) : a.name.InLine := by
  obtain ⟨start, rest, hread⟩ := h
  have hname : a.name = start.text.takeWhile isNameChar := by
    simp only [read?] at hread
    split at hread
    · cases hread
    · split at hread <;> cases hread <;> rfl
  rw [hname]
  exact Text.inLine_of_class List.all_takeWhile (by decide) (by decide)

theorem Directive.inLine_name (body place : Fragment) : (ofLexeme body place).name.InLine := by
  have hread : (ofLexeme body place).name =
      ((DirectiveBody.name? body.text).map Prod.fst).getD Builder.defaultDirective := rfl
  rw [hread]
  unfold DirectiveBody.name?
  dsimp only
  split
  · exact Text.inLine_of_class (p := DirectiveBody.isNameChar) (by decide) (by decide) (by decide)
  · exact Text.inLine_of_class List.all_takeWhile (by decide) (by decide)

mutual

/-- What a walk passes inside an element was entered before, or is around all of the walk. -/
theorem Node.enter_of_pass {outer : Option Tag} (node : Node) {parent : Tag} {inner : Node}
    (h : .pass (some parent) inner ∈ node.walk outer) :
    outer = some parent ∨ .enter parent ∈ node.walk outer := by
  cases node with
  | element tag closing children =>
    rw [walk] at h ⊢
    have hinside : .pass (some parent) inner ∈ walkAll (some tag) children := by simpa using h
    rcases Node.enter_of_passAll children hinside with htag | hentered
    · cases htag
      exact .inr (List.mem_cons_self ..)
    · exact .inr (List.mem_cons_of_mem _ (List.mem_append_left _ hentered))
  | _ =>
    rw [walk] at h
    cases List.mem_singleton.1 h
    exact .inl rfl

theorem Node.enter_of_passAll {outer : Option Tag} (nodes : List Node) {parent : Tag} {inner : Node}
    (h : .pass (some parent) inner ∈ walkAll outer nodes) :
    outer = some parent ∨ .enter parent ∈ walkAll outer nodes := by
  cases nodes with
  | nil => cases h
  | cons node nodes =>
    rw [walkAll] at h ⊢
    rcases List.mem_append.1 h with h | h
    · exact (Node.enter_of_pass node h).imp_right (List.mem_append_left _)
    · exact (Node.enter_of_passAll nodes h).imp_right (List.mem_append_right _)

end

section

variable {source : Text}

theorem Tag.inLine_name {tag : Tag} (h : .enter tag ∈ Node.walkAll none (parse source).nodes) :
    tag.name.InLine := by
  obtain ⟨turn, -, -, -, name, attributes, selfClosing, htoken, rfl⟩ := exists_opens h
  exact Turn.inLine_name (by rw [htoken]; rfl)

namespace Turn

variable {turn : Turn}

theorem inLine_parent (h : turn ∈ turns source) {d : Directive} (heffect : turn.effect = .add (.directive d))
    {parent : Tag} (hparent : turn.builder.parent? = some parent) : parent.name.InLine := by
  have hseen : .pass (some parent) (.directive d) ∈ turn.seen := by
    rw [seen, heffect, hparent]
    exact List.mem_singleton_self _
  -- the walk of the page passes the directive where the step put it
  have hpass : .pass (some parent) (.directive d) ∈ Node.walkAll none (parse source).nodes := by
    have hall := List.mem_flatMap.2 ⟨turn, h, hseen⟩
    rw [← seen_parse] at hall
    exact (List.mem_filter.1 hall).1
  exact Tag.inLine_name ((Node.enter_of_passAll _ hpass).resolve_left (by simp))

theorem inLine_of_mem_closingRemarks {p : Problem} {name : Text} (hname : turn.token.name? = some name)
    (hp : p ∈ turn.builder.closingRemarks name turn.lexeme) : ∀ name ∈ p.defect.names, name.InLine := by
  unfold Builder.closingRemarks at hp
  split at hp
  · rw [List.mem_singleton.1 hp]
    exact List.forall_mem_singleton.2 (inLine_name hname)
  · cases hp

/-- What a step names in a remark is in one line. -/
theorem inLine_of_mem_remarks (h : turn ∈ turns source) {p : Problem} (hp : p ∈ turn.remarks) :
    ∀ name ∈ p.defect.names, name.InLine := by
  by_cases hraw : turn.builder.rawRun turn.rest = []
  · have heffect := effect_eq hraw
    rw [remarks_eq hraw] at hp
    cases htoken : turn.token with
    | directive body =>
      rw [htoken] at hp heffect
      simp only [Builder.remarks, Builder.directiveRemarks, List.mem_append, List.mem_map,
        Option.mem_toList] at hp
      rcases hp with (⟨leftover, -, rfl⟩ | ⟨parent, hparent, rfl⟩) | ⟨a, hmem, rfl⟩
      · exact List.forall_mem_nil _
      · exact List.forall_mem_cons.2 ⟨Directive.inLine_name _ _,
          List.forall_mem_singleton.2 (inLine_parent h heffect hparent)⟩
      · have hread := (DirectiveBody.inside_read _).1 a (Builder.mem_of_mem_repeated hmem)
        exact List.forall_mem_singleton.2 hread.1.inLine_name
    | openTag name attributes selfClosing =>
      have hread (a : Attribute) (ha : a ∈ Attribute.ofTag ⟨turn.offset + 1 + name.byteLength, attributes⟩) :
          ∀ name ∈ [a.name], name.InLine :=
        List.forall_mem_singleton.2 (Attribute.isRead_of_mem_readAll ha).inLine_name
      rw [htoken, Builder.remarks] at hp
      split at hp
      · cases hp
      · rcases List.mem_append.1 hp with hp | hp
        · obtain ⟨a, hmem, rfl⟩ := List.mem_map.1 hp
          exact hread a (Builder.mem_of_mem_repeated hmem)
        · obtain ⟨a, hmem, rfl⟩ := Tag.exists_of_mem_codeReports hp
          exact hread a (Builder.mem_of_mem_separate hmem)
    | closeTag name =>
      rw [htoken] at hp
      exact inLine_of_mem_closingRemarks (by rw [htoken]; rfl) hp
    | text =>
      rw [htoken] at hp
      obtain ⟨n, -, rfl⟩ := List.mem_map.1 hp
      exact List.forall_mem_nil _
    | malformedServerTag name =>
      rw [htoken] at hp
      rw [List.mem_singleton.1 hp]
      exact List.forall_mem_singleton.2 (inLine_name (by rw [htoken]; rfl))
    | runatOnClosingTag name =>
      have hname : turn.token.name? = some name := by rw [htoken]; rfl
      rw [htoken] at hp
      rcases List.mem_cons.1 hp with rfl | hp
      · exact List.forall_mem_singleton.2 (inLine_name hname)
      · exact inLine_of_mem_closingRemarks hname hp
    | comment | code _ _ | binding _ _ =>
      rw [htoken] at hp
      cases hp
    | unterminatedComment | unterminatedDirective | unterminatedCode =>
      rw [htoken] at hp
      rw [List.mem_singleton.1 hp]
      exact List.forall_mem_nil _
  · rw [remarks_of_raw hraw] at hp
    cases hp

end Turn

/-- What a problem names is in one line. -/
theorem inLine_of_mem_problems {p : Problem} (h : p ∈ (parse source).problems) :
    ∀ name ∈ p.defect.names, name.InLine := by
  rcases exists_of_mem_problems h with ⟨turn, hturn, hp⟩ | ⟨tag, htag, rfl⟩
  · exact Turn.inLine_of_mem_remarks hturn hp
  · exact List.forall_mem_singleton.2 (Tag.inLine_name htag)

end

theorem Tag.subset_splitName (name : Text) :
    (splitName name).1.getD [] ⊆ name ∧ (splitName name).2 ⊆ name := by
  unfold splitName
  cases hcut : name.cut? [':'] with
  | none => exact ⟨List.nil_subset _, List.Subset.refl _⟩
  | some parts =>
    obtain ⟨scope, rest⟩ := parts
    dsimp only
    split
    · exact ⟨List.nil_subset _, List.Subset.refl _⟩
    · rw [Text.cut?_eq_some hcut]
      exact ⟨List.subset_append_left .., fun c hc => by simp [hc]⟩

namespace Site

variable {site : Site} {source : Text}

/-- What is said about a tag that comes to an error is in one line. -/
theorem inLine_of_notice? {spot : Spot} {n : Notice}
    (hnode : spot.node ∈ Node.withinAll (parse source).nodes) (h : site.notice? spot = some n) :
    n.message.InLine := by
  obtain ⟨around, registered, node⟩ := spot
  cases node with
  | element tag closing children =>
    obtain ⟨error, herror, rfl⟩ := Option.map_eq_some_iff.1 h
    have hname := Tag.inLine_name (Node.enter_mem_walkAll none _ hnode)
    have hparts := Tag.subset_splitName tag.name
    rcases error?_cases herror with rfl | rfl
    · exact hname.append (by decide)
    · refine Text.InLine.append (.append (by decide) fun c hc => hname c (hparts.1 hc)) ?_
      exact List.forall_mem_cons.2 ⟨by decide, fun c hc => hname c (hparts.2 hc)⟩
  | _ => cases h

end Site

namespace PageError

/-- An error for machines, without the line feed at its end. -/
def machineLine (path : Text) (e : PageError) : Text :=
  "ERROR ".toList ++ path ++ ':' :: e.location.start.shown ++ ':' :: e.location.stop.shown ++
    ' ' :: e.message

theorem machine_eq (path : Text) (e : PageError) : e.machine path = e.machineLine path ++ ['\n'] := rfl

theorem prefix_machineLine (path : Text) (e : PageError) :
    "ERROR ".toList ++ path <+: e.machineLine path := by
  unfold machineLine
  generalize "ERROR ".toList = label
  exact ((List.prefix_append ..).trans (List.prefix_append ..)).trans (List.prefix_append ..)

theorem message_suffix_machineLine (path : Text) (e : PageError) : e.message <:+ e.machineLine path :=
  (List.suffix_cons ..).trans (List.suffix_append ..)

/-- What an error adds to its path and its message has no line feed. -/
theorem mem_machineLine_iff (path : Text) (e : PageError) :
    '\n' ∈ e.machineLine path ↔ '\n' ∈ path ∨ '\n' ∈ e.message := by
  have hlabel : '\n' ∉ "ERROR ".toList := by decide
  have hposition (p : Position) : '\n' ∉ p.shown := by
    simp [Position.shown, Text.notMem_ofNat]
  unfold machineLine
  generalize "ERROR ".toList = label at hlabel ⊢
  simp [hlabel, hposition]

end PageError

/-- The error quotes directive text that is no attribute and has a line feed in it. -/
def Site.QuotesLineFeed (site : Site) (source : Text) (error : PageError) : Prop :=
  ∃ p ∈ (parse source).problems, error = site.error p.notice ∧
    ∃ text, p.defect = .malformedDirective text ∧ '\n' ∈ text

namespace Page

theorem mem_message_iff {path source : Text} {lookup : Lookup} {error : PageError}
    (h : error ∈ (ofSource path source lookup).errors) :
    '\n' ∈ error.message ↔ (site path source lookup).QuotesLineFeed source error := by
  constructor
  · intro hmem
    rcases exists_notice h with ⟨p, hp, rfl⟩ | ⟨spot, n, hnode, hnotice, rfl⟩
    · exact ⟨p, hp, rfl, (Defect.mem_message_iff (inLine_of_mem_problems hp)).1 hmem⟩
    · exact absurd hmem (Site.inLine_of_notice? hnode hnotice).notMem
  · rintro ⟨p, hp, rfl, hquotes⟩
    exact (Defect.mem_message_iff (inLine_of_mem_problems hp)).2 hquotes

/-- For machines every error of a page is printed as a line of its own, in the order of the errors: it
starts with the path and ends with the message, and the line feed behind it is its only one unless the
path holds one or the error quotes directive text that does. -/
theorem read_machineLines (path source : Text) (lookup : Lookup) :
    ∃ page, read path source lookup = .ok page ∧ ∃ lines : List Text,
      OutputFormat.machine.render path source page.errors = lines.flatMap (· ++ ['\n']) ∧
      List.Forall₂ (fun error line =>
        "ERROR ".toList ++ path <+: line ∧ error.message <:+ line ∧
          ('\n' ∈ line ↔ '\n' ∈ path ∨ (site path source lookup).QuotesLineFeed source error))
        page.errors lines := by
  refine ⟨_, read_eq_ok path source lookup, (ofSource path source lookup).errors.map (·.machineLine path),
    ?_, ?_⟩
  · rw [List.flatMap_map]
    exact List.flatMap_congr fun error _ => error.machine_eq path
  · rw [List.forall₂_map_right_iff, List.forall₂_same]
    intro error herror
    refine ⟨error.prefix_machineLine path, error.message_suffix_machineLine path, ?_⟩
    rw [PageError.mem_machineLine_iff, mem_message_iff herror]

/-- The text of a directive that is read as no attribute can break its line in two. -/
theorem read_machineLines_directiveText :
    ∃ page, read ['p'] "<%@ Page \"a\nb\" %>".toList (fun _ _ => none) = .ok page ∧
      page.errors.length = 1 ∧
      (OutputFormat.machine.render ['p'] "<%@ Page \"a\nb\" %>".toList page.errors).count '\n' = 2 := by
  refine ⟨_, read_eq_ok .., ?_, ?_⟩
  · decide +kernel
  · decide +kernel

end Page

end ServerPages
