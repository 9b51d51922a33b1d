import ServerPages.Proofs.PlainMarkup
import ServerPages.Proofs.Position
import ServerPages.Proofs.Progress

/-! Locations nest and are ordered like the source. The places of a node's parts follow each other inside
its span, and so do the controls they give: inside a control, a template or a property's value they stand
one after another from its start to its end, also where literals are merged over what gives no control. -/

namespace ServerPages

section

variable {α : Type}

/-- The spans of some things follow each other, from `low` on up to `high`. -/
def Row (At : α → Span → Prop) (low high : Nat) : List α → Prop
  | [] => low ≤ high
  | a :: as => ∃ s, At a s ∧ low ≤ s.start ∧ s.start ≤ s.stop ∧ Row At s.stop high as

namespace Row

variable {At : α → Span → Prop} {low high : Nat} {as bs : List α}

theorem le (h : Row At low high as) : low ≤ high := by
  induction as generalizing low with
  | nil => exact h
  | cons a as ih =>
    obtain ⟨s, -, hlow, hs, h⟩ := h
    exact Nat.le_trans hlow (Nat.le_trans hs (ih h))

theorem mono {low' high' : Nat} (h : Row At low high as) (hlow : low' ≤ low) (hhigh : high ≤ high') :
    Row At low' high' as := by
  induction as generalizing low low' with
  | nil => exact Nat.le_trans hlow (Nat.le_trans h hhigh)
  | cons a as ih =>
    obtain ⟨s, ha, hs, hle, h⟩ := h
    exact ⟨s, ha, Nat.le_trans hlow hs, hle, ih h (Nat.le_refl _)⟩

theorem append {middle : Nat} (ha : Row At low middle as) (hb : Row At middle high bs) :
    Row At low high (as ++ bs) := by
  induction as generalizing low with
  | nil => exact hb.mono ha (Nat.le_refl _)
  | cons a as ih =>
    obtain ⟨s, hat, hlow, hs, h⟩ := ha
    exact ⟨s, hat, hlow, hs, ih h⟩

theorem exists_of_append (h : Row At low high (as ++ bs)) :
    ∃ middle, Row At low middle as ∧ Row At middle high bs := by
  induction as generalizing low with
  | nil => exact ⟨low, Nat.le_refl _, h⟩
  | cons a as ih =>
    obtain ⟨s, hat, hlow, hs, h⟩ := h
    obtain ⟨middle, has, hbs⟩ := ih h
    exact ⟨middle, ⟨s, hat, hlow, hs, has⟩, hbs⟩

theorem bounds (h : Row At low high as) : ∀ a ∈ as, ∃ s, At a s ∧ low ≤ s.start ∧
    s.start ≤ s.stop ∧ s.stop ≤ high := by
  intro a ha
  obtain ⟨before, after, rfl⟩ := List.append_of_mem ha
  obtain ⟨middle, hbefore, s, hat, hlow, hs, hafter⟩ := h.exists_of_append
  exact ⟨s, hat, Nat.le_trans hbefore.le hlow, hs, hafter.le⟩

theorem pairwise (h : Row At low high as) :
    as.Pairwise fun a b => ∃ s t, At a s ∧ At b t ∧ s.stop ≤ t.start := by
  induction as generalizing low with
  | nil => exact .nil
  | cons a as ih =>
    obtain ⟨s, hat, -, -, h⟩ := h
    refine .cons (fun b hb => ?_) (ih h)
    obtain ⟨t, hbt, hle, -, -⟩ := h.bounds b hb
    exact ⟨s, t, hat, hbt, hle⟩

end Row

end

namespace Fragment

def At (f : Fragment) (s : Span) : Prop := s = f.span

theorem start_le_stop (f : Fragment) : f.span.start ≤ f.span.stop := Nat.le_add_right _ _

theorem row_of_inOrder {fs : List Fragment} {low high : Nat} (h : InOrder fs) (hle : low ≤ high)
    (hbounds : ∀ f ∈ fs, low ≤ f.span.start ∧ f.span.stop ≤ high) : Row At low high fs := by
  induction fs generalizing low with
  | nil => exact hle
  | cons f fs ih =>
    obtain ⟨hfirst, hrest⟩ := List.pairwise_cons.1 h
    obtain ⟨hlow, hhigh⟩ := hbounds f (List.mem_cons_self ..)
    refine ⟨f.span, rfl, hlow, f.start_le_stop, ih hrest hhigh fun g hg => ⟨hfirst g hg, ?_⟩⟩
    exact (hbounds g (List.mem_cons_of_mem _ hg)).2

theorem inOrder_of_row {fs : List Fragment} {low high : Nat} (h : Row At low high fs) : InOrder fs := by
  refine h.pairwise.imp ?_
  rintro f g ⟨_, _, rfl, rfl, hle⟩
  exact hle

end Fragment

namespace Node

/-- The pieces of a node reach from its start to its end. -/
theorem row_pieces {node : Node} {low high : Nat} (h : Row Fragment.At low high node.pieces) :
    low ≤ node.start ∧ node.stop ≤ high ∧ Row Fragment.At node.start node.stop node.pieces := by
  obtain ⟨first, rest, hfirst, hstart⟩ := node.exists_first
  obtain ⟨front, last, hlast, hstop⟩ := node.exists_last (Fragment.inOrder_of_row h)
  have hlow : low ≤ node.start ∧ Row Fragment.At node.start high node.pieces := by
    rw [hfirst] at h ⊢
    obtain ⟨_, rfl, hle, hs, hrest⟩ := h
    exact ⟨hstart ▸ hle, first.span, rfl, Nat.le_of_eq hstart.symm, hs, hrest⟩
  have hhigh : node.stop ≤ high ∧ Row Fragment.At node.start node.stop node.pieces := by
    have hrow := hlow.2
    rw [hlast] at hrow ⊢
    obtain ⟨middle, hfront, _, rfl, hle, hs, hend⟩ := hrow.exists_of_append
    rw [hstop]
    exact ⟨hend, hfront.append ⟨last.span, rfl, hle, hs, Nat.le_refl _⟩⟩
  exact ⟨hlow.1, hhigh⟩

theorem row_element {tag : Tag} {closing : Closing} {children : List Node} {low high : Nat}
    (h : Row Fragment.At low high (pieces (.element tag closing children))) :
    let s := Node.span (.element tag closing children)
    low ≤ s.start ∧ s.stop ≤ high ∧ s.start ≤ tag.opening.span.stop ∧
      ∃ middle, Row Fragment.At tag.opening.span.stop middle (piecesAll children) ∧
        Row Fragment.At middle s.stop closing.pieces := by
  obtain ⟨hlow, hhigh, hrow⟩ := row_pieces h
  rw [pieces] at hrow
  obtain ⟨_, rfl, -, hs, hinside⟩ := hrow
  exact ⟨hlow, hhigh, hs, hinside.exists_of_append⟩

end Node

namespace Site

variable (site : Site)

def At (c : Control) (s : Span) : Prop := c.location? = some (site.locate s)

/-- the location of a span that is not reversed -/
def Forward (location : Location) : Prop := ∃ s : Span, location = site.locate s ∧ s.start ≤ s.stop

/-- the location of a span inside `s` -/
def Covers (s : Span) (location : Location) : Prop :=
  ∃ t : Span, location = site.locate t ∧ s.start ≤ t.start ∧ t.start ≤ t.stop ∧ t.stop ≤ s.stop

/-- What a control is made of stands inside it, its children in a row. -/
def Placed : Control → Prop
  | .root _ => True
  | .literal _ location | .code _ location => site.Forward location
  | .property _ value location => ∃ s : Span, location = site.locate s ∧ s.start ≤ s.stop ∧
      value.location? = some location ∧ Row site.At s.start s.stop value.children
  | .typed head properties children => ∃ s : Span, head.location = site.locate s ∧
      s.start ≤ s.stop ∧ (∀ a ∈ head.attributes, site.Covers s a.location) ∧
      (∀ p ∈ properties, ∃ location, p.location? = some location ∧ site.Covers s location) ∧
      Row site.At s.start s.stop children

def AllPlaced (controls : List Control) : Prop := ∀ c ∈ controls, ∀ d ∈ c.within, site.Placed d

end Site

/-- What is found has a location, and the controls of a template stand inside it in a row. -/
structure Findings.Placed (site : Site) (found : Findings) : Prop where
  errors : ∀ e ∈ found.errors, site.Forward e.location
  templates : ∀ t ∈ found.templates, site.AllPlaced t.controls ∧
    ∃ s : Span, t.location = site.locate s ∧ s.start ≤ s.stop ∧ Row site.At s.start s.stop t.controls
  scripts : ∀ s ∈ found.scripts, site.Forward s.location ∧ ∀ line ∈ s.lines, site.Forward line.location
  directives : ∀ d ∈ found.directives, site.Forward d.location

namespace Findings.Placed

variable {site : Site} {a b : Findings}

theorem nil : Findings.Placed site {} := by constructor <;> simp

theorem append (ha : a.Placed site) (hb : b.Placed site) : (a ++ b).Placed site := by
  refine ⟨?_, ?_, ?_, ?_⟩
  · exact fun e he => (List.mem_append.1 he).elim (ha.errors e) (hb.errors e)
  · exact fun t ht => (List.mem_append.1 ht).elim (ha.templates t) (hb.templates t)
  · exact fun s hs => (List.mem_append.1 hs).elim (ha.scripts s) (hb.scripts s)
  · exact fun d hd => (List.mem_append.1 hd).elim (ha.directives d) (hb.directives d)

end Findings.Placed

namespace Listing

variable {site : Site} {low middle high : Nat} {l : Listing}

/-- The gathered siblings stand in a row so far. -/
structure Spread (site : Site) (low high : Nat) (l : Listing) : Prop where
  row : Row site.At low high l.controls
  placed : site.AllPlaced l.controls

theorem Spread.append (h : l.Spread site low middle) {c : Control} {s : Span} (hat : site.At c s)
    (hlow : middle ≤ s.start) (hs : s.start ≤ s.stop) (hplaced : ∀ d ∈ c.within, site.Placed d) :
    (l.append c).Spread site low s.stop := by
  have hcontrols : (l.append c).controls = l.controls ++ [c] := by simp [Listing.append, controls]
  refine ⟨?_, ?_⟩
  · rw [hcontrols]
    exact h.row.append ⟨s, hat, hlow, hs, Nat.le_refl _⟩
  · rw [hcontrols]
    intro d hd
    rcases List.mem_append.1 hd with hd | hd
    · exact h.placed d hd
    · rw [List.mem_singleton.1 hd]
      exact hplaced

/-- A literal that is merged into the one before it ends it later. -/
theorem Spread.addLiteral (h : l.Spread site low middle) {text : Text} {s : Span}
    (hlow : middle ≤ s.start) (hs : s.start ≤ s.stop) :
    (l.addLiteral text (site.locate s)).Spread site low s.stop := by
  have hplaced : ∀ d ∈ (Control.literal text (site.locate s)).within, site.Placed d := by
    intro d hd
    rw [List.mem_singleton.1 hd]
    exact ⟨s, rfl, hs⟩
  unfold Listing.addLiteral
  split
  · exact ⟨h.row.mono (Nat.le_refl _) (Nat.le_trans hlow hs), h.placed⟩
  · split
    · next before start latest hlatest =>
      have hcontrols : l.controls = latest.reverse ++ [.literal before start] := by
        simp [controls, hlatest]
      have hrow := h.row
      rw [hcontrols] at hrow
      obtain ⟨m, hfront, t, hat, hm, ht, hend⟩ := hrow.exists_of_append
      cases hat
      have hwhole : (site.locate t).combine (site.locate s) = .ok (site.locate ⟨t.start, s.stop⟩) := by
        rw [Location.combine]
        exact if_pos rfl
      rw [hwhole]
      have hafter : t.start ≤ s.stop :=
        Nat.le_trans ht (Nat.le_trans hend (Nat.le_trans hlow hs))
      refine ⟨?_, ?_⟩
      · rw [controls, List.reverse_cons]
        exact hfront.append ⟨⟨t.start, s.stop⟩, rfl, hm, hafter, Nat.le_refl _⟩
      · intro d hd
        rw [controls, List.reverse_cons] at hd
        rcases List.mem_append.1 hd with hd | hd
        · exact h.placed d (hcontrols ▸ List.mem_append_left _ hd)
        · rw [List.mem_singleton.1 hd]
          intro e he
          rw [List.mem_singleton.1 he]
          exact ⟨⟨t.start, s.stop⟩, rfl, hafter⟩
    · exact h.append rfl hlow hs hplaced

theorem Spread.add (h : l.Spread site low middle) {c : Control} {s : Span} (hat : site.At c s)
    (hlow : middle ≤ s.start) (hs : s.start ≤ s.stop) (hplaced : ∀ d ∈ c.within, site.Placed d) :
    (l.add c).Spread site low s.stop := by
  cases c with
  | root children => cases hat
  | literal text location =>
    cases hat
    rw [Listing.add]
    exact h.addLiteral hlow hs
  | _ =>
    rw [Listing.add]
    exact h.append hat hlow hs hplaced

theorem Spread.addAll (h : l.Spread site low middle) {controls : List Control}
    (hrow : Row site.At middle high controls) (hplaced : site.AllPlaced controls) :
    (l.addAll controls).Spread site low high := by
  induction controls generalizing l middle with
  | nil =>
    rw [Listing.addAll]
    exact ⟨h.row.mono (Nat.le_refl _) hrow, h.placed⟩
  | cons c controls ih =>
    obtain ⟨s, hat, hlow, hs, hrest⟩ := hrow
    rw [Listing.addAll]
    exact ih (h.add hat hlow hs (hplaced c (List.mem_cons_self ..))) hrest
      fun d hd => hplaced d (List.mem_cons_of_mem _ hd)

end Listing

namespace Site

variable {site : Site} {low middle high : Nat}

/-- What a visit gives stands in a row, its containers taken apart. -/
structure Spread (site : Site) (low high : Nat) (controls : List Control) (found : Findings) : Prop where
  row : Row site.At low high (controls.flatMap Control.flat)
  placed : site.AllPlaced (controls.flatMap Control.flat)
  found : found.Placed site

variable {controls as bs : List Control} {found more : Findings}

theorem Spread.none (hle : low ≤ high) (h : found.Placed site) : site.Spread low high [] found :=
  ⟨hle, by simp [AllPlaced], h⟩

theorem Spread.error (hle : low ≤ high) {e : PageError} {s : Span} (hs : s.start ≤ s.stop)
    (he : e.location = site.locate s) : site.Spread low high [] { errors := [e] } := by
  refine .none hle ⟨?_, by simp, by simp, by simp⟩
  intro found hfound
  rw [List.mem_singleton.1 hfound]
  exact ⟨s, he, hs⟩

theorem Spread.append (ha : site.Spread low middle as found) (hb : site.Spread middle high bs more) :
    site.Spread low high (as ++ bs) (found ++ more) := by
  refine ⟨?_, ?_, ha.found.append hb.found⟩
  · rw [List.flatMap_append]
    exact ha.row.append hb.row
  · rw [List.flatMap_append]
    intro c hc
    rcases List.mem_append.1 hc with hc | hc
    · exact ha.placed c hc
    · exact hb.placed c hc

theorem Spread.one {c : Control} {s : Span} (hat : site.At c s) (hlow : low ≤ s.start)
    (hs : s.start ≤ s.stop) (hhigh : s.stop ≤ high) (hplaced : ∀ d ∈ c.within, site.Placed d)
    (h : found.Placed site) : site.Spread low high [c] found := by
  have hflat : [c].flatMap Control.flat = [c] := by
    cases c with
    | root children => cases hat
    | _ => rfl
  refine ⟨?_, ?_, h⟩
  · rw [hflat]
    exact ⟨s, hat, hlow, hs, hhigh⟩
  · rw [hflat]
    intro d hd
    rw [List.mem_singleton.1 hd]
    exact hplaced

theorem Spread.mono {low' high' : Nat} (h : site.Spread low high controls found) (hlow : low' ≤ low)
    (hhigh : high ≤ high') : site.Spread low' high' controls found :=
  ⟨h.row.mono hlow hhigh, h.placed, h.found⟩

theorem spread_literal {place : Fragment} (hlow : low ≤ place.span.start)
    (hhigh : place.span.stop ≤ high) : site.Spread low high [site.literal place] {} := by
  refine .one rfl hlow place.start_le_stop hhigh ?_ .nil
  intro d hd
  rw [List.mem_singleton.1 hd]
  exact ⟨place.span, rfl, place.start_le_stop⟩

/-- Gathered, the controls still stand in a row. -/
theorem Spread.gather (h : site.Spread low high controls found) (drop : Bool) :
    Row site.At low high (gather drop controls).1 ∧ site.AllPlaced (gather drop controls).1 ∧
      (found ++ (gather drop controls).2).Placed site := by
  have hempty : (Listing.empty drop).Spread site low low :=
    ⟨Nat.le_refl _, by simp [AllPlaced, Listing.controls, Listing.empty]⟩
  have hspread := hempty.addAll h.row h.placed
  rw [Listing.addAll_flat] at hspread
  exact ⟨hspread.row, hspread.placed, h.found.append (by constructor <;> simp [Site.gather])⟩

theorem Spread.markup {tag : Tag} {closing : Closing} {stop : Nat}
    (hrow : Row Fragment.At middle stop closing.pieces)
    (h : site.Spread tag.opening.span.stop middle controls found) :
    site.Spread tag.opening.span.start stop
      (site.literal tag.opening :: controls ++ site.closingLiteral tag closing stop) found := by
  have hopening : site.Spread tag.opening.span.start tag.opening.span.stop [site.literal tag.opening] {} :=
    spread_literal (Nat.le_refl _) (Nat.le_refl _)
  have hclosing : site.Spread middle stop (site.closingLiteral tag closing stop) {} := by
    cases closing with
    | closed place =>
      obtain ⟨_, rfl, hlow, -, hhigh⟩ := hrow
      exact spread_literal hlow hhigh
    | endOfInput =>
      refine .one (s := Span.empty stop) rfl hrow (Nat.le_refl _) (Nat.le_refl _) ?_ .nil
      intro d hd
      rw [List.mem_singleton.1 hd]
      exact ⟨Span.empty stop, rfl, Nat.le_refl _⟩
    | _ => exact .none hrow .nil
  have hall := (hopening.append h).append hclosing
  exact ⟨hall.row, hall.placed, h.found⟩

end Site

/-- The places of the nodes follow each other from `low` to `high`, and the attributes of each tag stand
in its opening. -/
structure Node.Laid (low high : Nat) (nodes : List Node) : Prop where
  row : Row Fragment.At low high (piecesAll nodes)
  attributes : ∀ tag closing children, .element tag closing children ∈ withinAll nodes →
    ∀ a ∈ tag.attributes, tag.opening.span.start ≤ a.place.span.start ∧
      a.place.span.stop ≤ tag.opening.span.stop

namespace Node.Laid

variable {low high : Nat} {node : Node} {nodes children : List Node} {tag : Tag} {closing : Closing}

theorem cons (h : Laid low high (node :: nodes)) :
    ∃ middle, Laid low middle [node] ∧ Laid middle high nodes := by
  obtain ⟨hrow, hattributes⟩ := h
  rw [piecesAll] at hrow
  obtain ⟨middle, hfirst, hrest⟩ := hrow.exists_of_append
  refine ⟨middle, ⟨by simpa [piecesAll] using hfirst, ?_⟩, ⟨hrest, ?_⟩⟩
  · intro tag closing children hmem
    exact hattributes tag closing children (by simp_all [withinAll])
  · intro tag closing children hmem
    exact hattributes tag closing children (by simp_all [withinAll])

theorem le (h : Laid low high nodes) : low ≤ high := h.row.le

/-- An element is laid out inside its span: its attributes, its children and its closing tag. -/
theorem element (h : Laid low high [.element tag closing children]) :
    let s := Node.span (.element tag closing children)
    low ≤ s.start ∧ s.stop ≤ high ∧ s.start ≤ tag.opening.span.stop ∧
      (∀ a ∈ tag.attributes, s.start ≤ a.place.span.start ∧ a.place.span.stop ≤ tag.opening.span.stop) ∧
      ∃ middle, Laid tag.opening.span.stop middle children ∧
        Row Fragment.At middle s.stop closing.pieces := by
  obtain ⟨hrow, hattributes⟩ := h
  rw [piecesAll, piecesAll, List.append_nil] at hrow
  obtain ⟨hlow, hhigh, hopening, middle, hchildren, hclosing⟩ := row_element hrow
  refine ⟨hlow, hhigh, hopening, ?_, middle, ⟨hchildren, ?_⟩, hclosing⟩
  · exact hattributes tag closing children (by simp [withinAll, within])
  · intro inner how inside hmem
    exact hattributes inner how inside (by simp [withinAll, within, hmem])

end Node.Laid

namespace Site

variable {site : Site} {low middle high : Nat} {tag : Tag} {closing : Closing} {children : List Node}

def Between (site : Site) (low high : Nat) (properties : List Control) : Prop :=
  (∀ p ∈ properties, ∃ s, site.At p s ∧ low ≤ s.start ∧ s.start ≤ s.stop ∧ s.stop ≤ high) ∧
    site.AllPlaced properties

theorem Between.append {as bs : List Control} (ha : site.Between low middle as)
    (hb : site.Between middle high bs) (hlow : low ≤ middle) (hhigh : middle ≤ high) :
    site.Between low high (as ++ bs) := by
  refine ⟨fun p hp => ?_, fun p hp => ?_⟩
  · rcases List.mem_append.1 hp with hp | hp
    · obtain ⟨s, hat, hstart, hs, hstop⟩ := ha.1 p hp
      exact ⟨s, hat, hstart, hs, Nat.le_trans hstop hhigh⟩
    · obtain ⟨s, hat, hstart, hs, hstop⟩ := hb.1 p hp
      exact ⟨s, hat, Nat.le_trans hlow hstart, hs, hstop⟩
  · rcases List.mem_append.1 hp with hp | hp
    · exact ha.2 p hp
    · exact hb.2 p hp

theorem Between.mono {high' : Nat} {properties : List Control} (h : site.Between low high properties)
    (hhigh : high ≤ high') : site.Between low high' properties := by
  refine ⟨fun p hp => ?_, h.2⟩
  obtain ⟨s, hat, hstart, hs, hstop⟩ := h.1 p hp
  exact ⟨s, hat, hstart, hs, Nat.le_trans hstop hhigh⟩

theorem Between.nil : site.Between low high [] := by
  simp [Between, AllPlaced]

/-- A typed control stands where its element does, and holds what it is made of. -/
theorem placed_typed (h : Node.Laid low high [.element tag closing children])
    {properties siblings : List Control} (typeName : QualifiedName) (info : Option ControlInfo)
    (hproperties : site.Between tag.opening.span.stop
      (Node.span (.element tag closing children)).stop properties)
    (hrow : Row site.At tag.opening.span.stop (Node.span (.element tag closing children)).stop siblings)
    (hplaced : site.AllPlaced siblings) :
    ∀ d ∈ (Control.typed (site.head tag (Node.span (.element tag closing children)) typeName info)
      properties siblings).within, site.Placed d := by
  obtain ⟨-, -, hopening, hattributes, -⟩ := h.element
  have hstop := hrow.le
  intro d hd
  rw [Control.within] at hd
  rcases List.mem_cons.1 hd with rfl | hd
  · refine ⟨_, rfl, Nat.le_trans hopening hstop, ?_, ?_, hrow.mono hopening (Nat.le_refl _)⟩
    · intro a ha
      obtain ⟨b, hb, rfl⟩ := List.mem_map.1 ha
      obtain ⟨hstart, hend⟩ := hattributes b (List.mem_filter.1 hb).1
      exact ⟨b.place.span, rfl, hstart, b.place.start_le_stop, Nat.le_trans hend hstop⟩
    · intro p hp
      obtain ⟨s, hat, hstart, hs, hend⟩ := hproperties.1 p hp
      exact ⟨_, hat, s, rfl, Nat.le_trans hopening hstart, hs, hend⟩
  · rcases List.mem_append.1 hd with hd | hd
    · obtain ⟨p, hp, hd⟩ := Control.mem_withinAll.1 hd
      exact hproperties.2 p hp d hd
    · obtain ⟨c, hc, hd⟩ := Control.mem_withinAll.1 hd
      exact hplaced c hc d hd

theorem Spread.typed (h : Node.Laid low high [.element tag closing children])
    {properties controls : List Control} {found : Findings} (typeName : QualifiedName)
    (info : Option ControlInfo)
    (hproperties : site.Between tag.opening.span.stop
      (Node.span (.element tag closing children)).stop properties)
    (hcontrols : site.Spread tag.opening.span.stop (Node.span (.element tag closing children)).stop
      controls found) :
    site.Spread low high
      [.typed (site.head tag (Node.span (.element tag closing children)) typeName info) properties
        (Site.gather false controls).1] (found ++ (Site.gather false controls).2) := by
  obtain ⟨hlow, hhigh, hopening, -, -⟩ := h.element
  obtain ⟨hrow, hplaced, hfound⟩ := hcontrols.gather false
  exact .one rfl hlow (Nat.le_trans hopening hrow.le) hhigh
    (placed_typed h typeName info hproperties hrow hplaced) hfound

/-- A property stands where the sub-element does that assigns it, and so does its value. -/
theorem between_promoted (h : Node.Laid low high [.element tag closing children])
    {controls : List Control} {found : Findings} (hcontrols : site.Spread tag.opening.span.stop
      (Node.span (.element tag closing children)).stop controls found) (dataType : DataType) :
    site.Between low high [.property tag.localName
      (.typed (site.head tag (Node.span (.element tag closing children)) (propertyType tag dataType)
        none) [] (Site.gather (dataType.kind != .template) controls).1)
      (site.locate (Node.span (.element tag closing children)))] := by
  obtain ⟨hlow, hhigh, hopening, -, -⟩ := h.element
  obtain ⟨hrow, hplaced, -⟩ := hcontrols.gather (dataType.kind != .template)
  have hle := Nat.le_trans hopening hrow.le
  refine ⟨fun p hp => ?_, fun p hp => ?_⟩
  · rw [List.mem_singleton.1 hp]
    exact ⟨_, rfl, hlow, hle, hhigh⟩
  · rw [List.mem_singleton.1 hp]
    intro d hd
    rw [Control.within] at hd
    rcases List.mem_cons.1 hd with rfl | hd
    · exact ⟨_, rfl, hle, rfl, hrow.mono hopening (Nat.le_refl _)⟩
    · exact placed_typed h _ _ .nil hrow hplaced d hd

/-- The lines of a script stand where their text does. -/
theorem forward_scriptLines (offset : Nat) (lines : List Text) :
    ∀ line ∈ site.scriptLines offset lines, site.Forward line.location := by
  induction lines generalizing offset with
  | nil => simp [scriptLines]
  | cons text lines ih =>
    intro line hline
    rw [scriptLines] at hline
    rcases List.mem_cons.1 hline with rfl | hline
    · exact ⟨_, rfl, Nat.le_add_right _ _⟩
    · exact ih _ line hline

theorem forward_script (s : Span) (hs : s.start ≤ s.stop) (children : List Node) :
    Findings.Placed site { scripts := [site.script children s] } := by
  refine ⟨by simp, by simp, ?_, by simp⟩
  intro script hscript
  rw [List.mem_singleton.1 hscript]
  refine ⟨⟨s, rfl, hs⟩, fun line hline => ?_⟩
  obtain ⟨node, -, hline⟩ := List.mem_flatMap.1 hline
  cases node with
  | literal place => exact forward_scriptLines _ _ line hline
  | _ => cases hline

mutual

/-- The control of a node stands where the node does, and so does what is found in it. -/
theorem visit_spread {low high : Nat} (registered : UserControls) (node : Node)
    (h : Node.Laid low high [node]) :
    site.Spread low high (site.visit registered node).1.toList (site.visit registered node).2 := by
  cases node with
  | directive d =>
    rw [visit]
    refine .none h.le ⟨by simp [directive], by simp [directive], by simp [directive], ?_⟩
    intro found hfound
    rw [List.mem_singleton.1 hfound]
    exact ⟨d.place.span, rfl, d.place.start_le_stop⟩
  | literal place =>
    rw [visit]
    obtain ⟨_, rfl, hlow, -, hhigh⟩ := h.row
    exact spread_literal hlow hhigh
  | code kind body place =>
    cases kind with
    | encode =>
      rw [visit]
      obtain ⟨_, rfl, hlow, hs, hhigh⟩ := h.row
      refine .one rfl hlow hs hhigh ?_ .nil
      intro d hd
      rw [List.mem_singleton.1 hd]
      exact ⟨place.span, rfl, hs⟩
    | _ =>
      rw [visit]
      · exact .none h.le .nil
      · simp
  | binding expression encode place =>
    rw [visit]
    exact .none h.le .nil
  | element tag closing children =>
    obtain ⟨hlow, hhigh, hopening, -, middle, hinside, hclosing⟩ := h.element
    have hall := visitAll_spread registered children hinside
    have hwhole : site.Spread tag.opening.span.stop (Node.span (.element tag closing children)).stop
        (site.visitAll registered children).1 (site.visitAll registered children).2 :=
      hall.mono (Nat.le_refl _) hclosing.le
    have hle : (Node.span (.element tag closing children)).start ≤
        (Node.span (.element tag closing children)).stop := Nat.le_trans hopening hwhole.row.le
    rw [visit]
    by_cases hserver : (!tag.isServer) = true
    · -- plain markup is a container of siblings, which are flattened where it is collected
      rw [if_pos hserver]
      obtain ⟨hrow, hplaced, hfound⟩ := (hall.markup hclosing).gather false
      exact ⟨by simpa [Control.flat] using hrow.mono hlow hhigh, by simpa [Control.flat] using hplaced,
        hfound⟩
    · rw [if_neg hserver]
      cases hof : Resolution.of site.lookup registered tag with
      | content =>
        -- a block is taken out of the tree: its siblings stand inside a template
        dsimp only
        split
        · exact .error h.le tag.opening.start_le_stop rfl
        · obtain ⟨hrow, hplaced, hfound⟩ := hwhole.gather false
          refine .none h.le ⟨hfound.errors, ?_, hfound.scripts, hfound.directives⟩
          intro t ht
          rcases List.mem_cons.1 ht with rfl | ht
          · exact ⟨hplaced, _, rfl, hle, hrow.mono hopening (Nat.le_refl _)⟩
          · exact hfound.templates t ht
      | placeholder id =>
        obtain ⟨hbetween, hspread⟩ :=
          visitMembers_spread registered (site.info? tag) children hinside
        have htyped := (hspread.mono (Nat.le_refl _) hclosing.le).typed h placeholderType
          (site.info? tag) (hbetween.mono hclosing.le)
        exact ⟨htyped.row, htyped.placed, htyped.found.errors, htyped.found.templates,
          htyped.found.scripts, htyped.found.directives⟩
      | known about =>
        obtain ⟨hbetween, hspread⟩ := visitMembers_spread registered (some about) children hinside
        exact (hspread.mono (Nat.le_refl _) hclosing.le).typed h about.typeName (some about)
          (hbetween.mono hclosing.le)
      | user typeName => exact hwhole.typed h _ _ .nil
      | html typeName => exact hwhole.typed h _ _ .nil
      | script => exact .none h.le (forward_script _ hle children)
      | unknown => exact .error h.le tag.opening.start_le_stop rfl
termination_by sizeOf node

theorem visitAll_spread {low high : Nat} (registered : UserControls) (nodes : List Node)
    (h : Node.Laid low high nodes) :
    site.Spread low high (site.visitAll registered nodes).1 (site.visitAll registered nodes).2 := by
  cases nodes with
  | nil =>
    rw [visitAll]
    exact .none h.le .nil
  | cons node nodes =>
    obtain ⟨middle, hfirst, hrest⟩ := h.cons
    rw [visitAll]
    exact (visit_spread registered node hfirst).append (visitAll_spread _ nodes hrest)
termination_by sizeOf nodes

theorem visitMembers_spread {low high : Nat} (registered : UserControls)
    (info : Option ControlInfo) (nodes : List Node) (h : Node.Laid low high nodes) :
    site.Between low high (site.visitMembers registered info nodes).1 ∧
      site.Spread low high (site.visitMembers registered info nodes).2.1
        (site.visitMembers registered info nodes).2.2 := by
  cases nodes with
  | nil =>
    rw [visitMembers]
    exact ⟨.nil, .none h.le .nil⟩
  | cons node nodes =>
    obtain ⟨middle, hfirst, hrest⟩ := h.cons
    by_cases hnode : ∃ tag closing children dataType, node = .element tag closing children ∧
        promoted? info tag = some dataType
    · obtain ⟨tag, closing, children, dataType, rfl, hpromoted⟩ := hnode
      obtain ⟨-, -, -, -, inner, hinside, hclosing⟩ := hfirst.element
      have hall := (visitAll_spread registered children hinside).mono (Nat.le_refl _) hclosing.le
      obtain ⟨-, -, hfound⟩ := hall.gather (dataType.kind != .template)
      obtain ⟨hbetween, hspread⟩ := visitMembers_spread (UserControls.extend registered
        ((site.visitAll registered children).2 ++
          (gather (dataType.kind != .template) (site.visitAll registered children).1).2).registrations)
        info nodes hrest
      rw [visitMembers_promoted _ _ hpromoted]
      exact ⟨(between_promoted hfirst hall dataType).append hbetween hfirst.le hrest.le,
        (Spread.none hfirst.le hfound).append hspread⟩
    · have hvisit := visit_spread registered node hfirst
      obtain ⟨hbetween, hspread⟩ := visitMembers_spread (UserControls.extend registered
        (site.visit registered node).2.registrations) info nodes hrest
      have hother : ∀ tag closing children, node = .element tag closing children →
          promoted? info tag = none := by
        intro tag closing children he
        cases hpromoted : promoted? info tag with
        | none => rfl
        | some dataType => exact absurd ⟨tag, closing, children, dataType, he, hpromoted⟩ hnode
      rw [visitMembers_other _ _ hother]
      exact ⟨Between.nil.append hbetween hfirst.le hrest.le, hvisit.append hspread⟩
termination_by sizeOf nodes

end

end Site

theorem Node.laid_parse (source : Text) : Node.Laid 0 source.byteLength (parse source).nodes := by
  refine ⟨Fragment.row_of_inOrder (pairwise_pieces_parse source) (Nat.zero_le _) fun f hf => ?_, ?_⟩
  · exact ⟨Nat.zero_le _, (standsIn_of_mem_pieces hf).stop_le⟩
  · intro tag closing children h a ha
    exact ((attributes_of_enter (Node.enter_mem_walkAll none _ h)).2 a ha).2

/-- One location lies within another of the same file. -/
def Location.Inside (a b : Location) : Prop :=
  a.path = b.path ∧ b.start.le a.start = true ∧ a.stop.le b.stop = true

def Control.locations : Control → List Location
  | .typed head _ _ => head.location :: head.attributes.map (·.location)
  | control => control.location?.toList

namespace Page

def locations (page : Page) : List Location :=
  page.controls.flatMap Control.locations ++ page.templates.map (·.location) ++
    page.scripts.flatMap (fun s => s.location :: s.lines.map (·.location)) ++
    (page.directives ++ page.directive.toList).map (·.location) ++ page.errors.map (·.location)

section

variable {path source : Text} {lookup : Lookup}

theorem forward_iff {location : Location} (h : (site path source lookup).Forward location) :
    location.path = path ∧ location.start.le location.stop = true := by
  obtain ⟨s, rfl, hs⟩ := h
  exact ⟨rfl, LineIndex.position_mono source hs⟩

theorem inside_of_covers {s : Span} {location : Location}
    (h : (site path source lookup).Covers s location) :
    location.Inside ((site path source lookup).locate s) := by
  obtain ⟨t, rfl, hstart, -, hstop⟩ := h
  exact ⟨rfl, LineIndex.position_mono source hstart, LineIndex.position_mono source hstop⟩

/-- Siblings in a row lie within the span they are in, each behind the one before it. -/
theorem inside_of_row {low high : Nat} {controls : List Control}
    (h : Row (site path source lookup).At low high controls) :
    (∀ c ∈ controls, ∃ location, c.location? = some location ∧
      location.Inside ((site path source lookup).locate ⟨low, high⟩)) ∧
    controls.Pairwise fun c d => ∃ a b, c.location? = some a ∧ d.location? = some b ∧
      a.stop.le b.start = true := by
  refine ⟨fun c hc => ?_, h.pairwise.imp ?_⟩
  · obtain ⟨s, hat, hlow, hs, hhigh⟩ := h.bounds c hc
    exact ⟨_, hat, inside_of_covers ⟨s, rfl, hlow, hs, hhigh⟩⟩
  · rintro c d ⟨s, t, hc, hd, hle⟩
    exact ⟨_, _, hc, hd, LineIndex.position_mono source hle⟩

theorem spread (path source : Text) (lookup : Lookup) :
    (site path source lookup).Spread 0 source.byteLength
      ((site path source lookup).visitAll .empty (parse source).nodes).1
      ((site path source lookup).visitAll .empty (parse source).nodes).2 :=
  Site.visitAll_spread _ _ (Node.laid_parse source)

theorem placed_of_mem_controls {c : Control} (h : c ∈ (ofSource path source lookup).controls) :
    (site path source lookup).Placed c := by
  obtain ⟨-, hroot, -⟩ := (spread path source lookup).gather false
  rcases mem_controls h with ⟨d, hd, hc⟩ | ⟨t, ht, d, hd, hc⟩
  · exact hroot d hd c hc
  · exact ((spread path source lookup).found.templates t ht).1 d hd c hc

theorem forward_of_mem_locations {location : Location}
    (h : location ∈ (ofSource path source lookup).locations) :
    (site path source lookup).Forward location := by
  have hfound := (spread path source lookup).found
  simp only [locations, List.mem_append, or_assoc] at h
  rcases h with h | h | h | h | h
  · obtain ⟨c, hc, h⟩ := List.mem_flatMap.1 h
    have hplaced := placed_of_mem_controls hc
    cases c with
    | root children => simp [Control.locations, Control.location?] at h
    | typed head properties children =>
      obtain ⟨s, hs, hle, hattributes, -⟩ := hplaced
      rcases List.mem_cons.1 h with rfl | h
      · exact ⟨s, hs, hle⟩
      · obtain ⟨a, ha, rfl⟩ := List.mem_map.1 h
        obtain ⟨t, ht, -, hle, -⟩ := hattributes a ha
        exact ⟨t, ht, hle⟩
    | property name value here =>
      obtain ⟨s, hs, hle, -, -⟩ := hplaced
      rw [List.mem_singleton.1 h]
      exact ⟨s, hs, hle⟩
    | _ =>
      rw [List.mem_singleton.1 h]
      exact hplaced
  · obtain ⟨t, ht, rfl⟩ := List.mem_map.1 h
    obtain ⟨-, s, hs, hle, -⟩ := hfound.templates t ht
    exact ⟨s, hs, hle⟩
  · obtain ⟨s, hs, h⟩ := List.mem_flatMap.1 h
    obtain ⟨hscript, hlines⟩ := hfound.scripts s hs
    rcases List.mem_cons.1 h with rfl | h
    · exact hscript
    · obtain ⟨line, hline, rfl⟩ := List.mem_map.1 h
      exact hlines line hline
  · obtain ⟨d, hd, rfl⟩ := List.mem_map.1 h
    refine hfound.directives d ?_
    rcases List.mem_append.1 hd with hd | hd
    · exact hd
    · exact List.mem_of_find?_eq_some (Option.mem_toList.1 hd)
  · obtain ⟨e, he, rfl⟩ := List.mem_map.1 h
    rcases List.mem_append.1 (List.mem_mergeSort.1 he) with he | he
    · obtain ⟨p, hp, rfl⟩ := List.mem_map.1 he
      exact ⟨p.span, rfl, (valid_of_mem_problems hp).start_le_stop⟩
    · exact hfound.errors e he

end

/-- Every page can be read, and its locations are laid out like its source. All are of the page's file and
start no later than they end. What belongs to a control, to the value of a property or to a template lies
within it, and in every list of siblings each control ends no later than the next one starts. -/
theorem read_locations (path source : Text) (lookup : Lookup) :
    ∃ page, read path source lookup = .ok page ∧
      (∀ location ∈ page.locations,
        location.path = path ∧ location.start.le location.stop = true) ∧
      (∀ head properties children, .typed head properties children ∈ page.controls →
        (∀ a ∈ head.attributes, a.location.Inside head.location) ∧
        ∀ c ∈ properties ++ children, ∃ location, c.location? = some location ∧
          location.Inside head.location) ∧
      (∀ name value here, .property name value here ∈ page.controls →
        value.location? = some here ∧
        ∀ c ∈ value.children, ∃ location, c.location? = some location ∧ location.Inside here) ∧
      (∀ t ∈ page.templates, ∀ c ∈ t.controls, ∃ location, c.location? = some location ∧
        location.Inside t.location) ∧
      ∀ siblings ∈ page.siblings, siblings.Pairwise fun c d => ∃ a b,
        c.location? = some a ∧ d.location? = some b ∧ a.stop.le b.start = true := by
  refine ⟨_, read_eq_ok path source lookup, fun location h => forward_iff (forward_of_mem_locations h),
    ?_, ?_, ?_, ?_⟩
  · intro head properties children h
    obtain ⟨s, hs, -, hattributes, hproperties, hrow⟩ := placed_of_mem_controls h
    rw [hs]
    refine ⟨fun a ha => inside_of_covers (hattributes a ha), fun c hc => ?_⟩
    rcases List.mem_append.1 hc with hc | hc
    · obtain ⟨location, hat, hcovers⟩ := hproperties c hc
      exact ⟨location, hat, inside_of_covers hcovers⟩
    · exact (inside_of_row hrow).1 c hc
  · intro name value here h
    obtain ⟨s, hs, -, hvalue, hrow⟩ := placed_of_mem_controls h
    refine ⟨hvalue, ?_⟩
    rw [hs]
    exact (inside_of_row hrow).1
  · intro t ht
    obtain ⟨-, s, hs, -, hrow⟩ := (spread path source lookup).found.templates t ht
    rw [hs]
    exact (inside_of_row hrow).1
  · intro siblings h
    rcases List.mem_cons.1 h with rfl | h
    · exact (inside_of_row ((spread path source lookup).gather false).1).2
    · rcases List.mem_append.1 h with h | h
      · obtain ⟨t, ht, rfl⟩ := List.mem_map.1 h
        obtain ⟨-, s, -, -, hrow⟩ := (spread path source lookup).found.templates t ht
        exact (inside_of_row hrow).2
      · obtain ⟨c, hc, hchildren⟩ := List.mem_filterMap.1 h
        cases c with
        | typed head properties children =>
          cases hchildren
          obtain ⟨s, -, -, -, -, hrow⟩ := placed_of_mem_controls hc
          exact (inside_of_row hrow).2
        | _ => cases hchildren

end Page

end ServerPages
