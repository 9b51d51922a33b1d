import Mathlib.Data.List.SplitBy
import ServerPages.Proofs.Siblings

/-! Gathering controls gives a normal form of them. Containers are spliced and every run of literals is one
literal, no matter how deep in the containers a run starts and where it ends. So it makes no difference
whether parts of the controls were gathered before, and controls that were gathered stay as they are. -/

namespace ServerPages

namespace Control

mutual

/-- What a control puts into a list: a container, what is in it. -/
def splice : Control → List Control
  | .root children => spliceAll children
  | .literal text location => [.literal text location]
  | .code body location => [.code body location]
  | .property name value location => [.property name value location]
  | .typed head properties children => [.typed head properties children]

def spliceAll : List Control → List Control
  | [] => []
  | control :: controls => splice control ++ spliceAll controls

end

def InFile (path : Text) : Control → Prop
  | .literal _ location => location.path = path
  | _ => True

/-- What a list takes as it is. -/
def Fits (path : Text) (dropLiterals : Bool) : Control → Prop
  | .root _ => False
  | .literal _ location => dropLiterals = false ∧ location.path = path
  | _ => True

def literalText : Control → Text
  | .literal text _ => text
  | _ => []

def joined (a b : Control) : Bool := a.isLiteral && b.isLiteral

/-- A run of literals as one literal, from the start of the first to the end of the last. -/
def merged : List Control → List Control
  | .literal text first :: more =>
    [.literal (text ++ more.flatMap literalText)
      ⟨first.path, first.start, ((more.filterMap location?).map (·.stop)).getLastD first.stop⟩]
  | run => run

def kept (dropLiterals : Bool) (controls : List Control) : List Control :=
  if dropLiterals then (spliceAll controls).filter (!·.isLiteral) else spliceAll controls

/-- The list that some controls make: containers are spliced, literals may be dropped, and every run of
literals is merged. -/
def normalForm (dropLiterals : Bool) (controls : List Control) : List Control :=
  ((kept dropLiterals controls).splitBy joined).flatMap merged

theorem Fits.inFile {path : Text} {dropLiterals : Bool} {c : Control} (h : c.Fits path dropLiterals) :
    c.InFile path := by
  cases c with
  | literal text location => exact h.2
  | _ => trivial

theorem spliceAll_eq_flatMap (controls : List Control) : spliceAll controls = controls.flatMap splice := by
  induction controls with
  | nil => rfl
  | cons c controls ih => rw [spliceAll, List.flatMap_cons, ih]

mutual

theorem root_notMem_splice (control : Control) (children : List Control) : .root children ∉ control.splice := by
  cases control with
  | root inner => exact root_notMem_spliceAll inner children
  | _ => simp [splice]

theorem root_notMem_spliceAll (controls children : List Control) : .root children ∉ spliceAll controls := by
  cases controls with
  | nil => simp [spliceAll]
  | cons c controls =>
    rw [spliceAll, List.mem_append, not_or]
    exact ⟨root_notMem_splice c children, root_notMem_spliceAll controls children⟩

end

theorem isLiteral_of_isChain {c : Control} {run : List Control} (h : (c :: run).IsChain (joined · ·)) :
    ∀ d ∈ run, d.isLiteral = true ∧ c.isLiteral = true := by
  induction run generalizing c with
  | nil => simp
  | cons d run ih =>
    obtain ⟨hjoined, hrest⟩ := List.isChain_cons_cons.1 h
    obtain ⟨hc, hd⟩ := Bool.and_eq_true_iff.1 hjoined
    refine List.forall_mem_cons.2 ⟨⟨hd, hc⟩, fun e he => ⟨(ih hrest e he).1, hc⟩⟩

theorem eq_nil_of_isChain {c : Control} {run : List Control} (h : (c :: run).IsChain (joined · ·))
    (hc : c.isLiteral = false) : run = [] := by
  refine List.eq_nil_iff_forall_not_mem.2 fun d hd => ?_
  rw [(isLiteral_of_isChain h d hd).2] at hc
  cases hc

end Control

namespace Listing

variable {l : Listing} {path : Text}

mutual

theorem addAll_splice (l : Listing) (c : Control) : l.addAll c.splice = l.add c := by
  cases c with
  | root children =>
    rw [Control.splice, add]
    exact addAll_spliceAll l children
  | _ => simp [Control.splice, addAll]

/-- Controls are added as they are spliced. -/
theorem addAll_spliceAll (l : Listing) (controls : List Control) :
    l.addAll (Control.spliceAll controls) = l.addAll controls := by
  cases controls with
  | nil => rfl
  | cons c controls =>
    rw [Control.spliceAll, addAll_append, addAll_splice, addAll_spliceAll, addAll]

end

/-- Two literals of one file are added as the literal that they make. -/
theorem add_add_literal (l : Listing) {text more : Text} {start location : Location}
    (h : start.path = location.path) :
    (l.add (.literal text start)).add (.literal more location) =
      l.add (.literal (text ++ more) ⟨start.path, start.start, location.stop⟩) := by
  obtain ⟨drop, latest, mismatch⟩ := l
  cases drop with
  | true => simp [add, addLiteral]
  | false =>
    match latest with
    | .literal before first :: latest =>
      by_cases hpath : first.path = start.path
      · simp [add, addLiteral, Location.combine, hpath, h]
      · simp [add, addLiteral, Location.combine, hpath, ← h]
    | [] | .root _ :: _ | .code _ _ :: _ | .property _ _ _ :: _ | .typed _ _ _ :: _ =>
      simp [add, addLiteral, append, Location.combine, h]

theorem add_literals (l : Listing) {text : Text} {start : Location} {more : List Control}
    (hstart : start.path = path) (hrun : ∀ c ∈ more, c.isLiteral = true ∧ c.InFile path) :
    l.addAll (Control.merged (.literal text start :: more)) = l.addAll (.literal text start :: more) := by
  induction more generalizing text start with
  | nil => simp [Control.merged]
  | cons c more ih =>
    obtain ⟨⟨hliteral, hfile⟩, hmore⟩ := List.forall_mem_cons.1 hrun
    cases c with
    | literal next location =>
      have hpath : (Location.mk start.path start.start location.stop).path = path := hstart
      have hmerged : Control.merged (.literal text start :: .literal next location :: more) =
          Control.merged (.literal (text ++ next) ⟨start.path, start.start, location.stop⟩ :: more) := by
        simp only [Control.merged, Control.literalText, Control.location?, List.flatMap_cons,
          List.filterMap_cons, List.map_cons, List.getLastD_cons, List.append_assoc]
      rw [hmerged, ih hpath hmore, addAll, addAll, addAll, add_add_literal l (hstart.trans hfile.symm)]
    | _ => cases hliteral

/-- A run is added as what it is merged into. -/
theorem addAll_merged (l : Listing) {run : List Control} (hchain : run.IsChain (Control.joined · ·))
    (hfile : ∀ c ∈ run, c.InFile path) : l.addAll (Control.merged run) = l.addAll run := by
  match run with
  | .literal text start :: more =>
    obtain ⟨hstart, hmore⟩ := List.forall_mem_cons.1 hfile
    exact l.add_literals hstart fun c hc => ⟨(Control.isLiteral_of_isChain hchain c hc).1, hmore c hc⟩
  | [] | .root _ :: _ | .code _ _ :: _ | .property _ _ _ :: _ | .typed _ _ _ :: _ => rfl

def Joins (l : Listing) (c : Control) : Prop := ∃ d ∈ l.latest.head?, Control.joined d c = true

/-- One run is added: it does not join what is there, and is merged. -/
theorem addAll_run {c : Control} {run : List Control} (hjoins : ¬ l.Joins c)
    (hchain : (c :: run).IsChain (Control.joined · ·))
    (hfits : ∀ d ∈ c :: run, d.Fits path l.dropLiterals) :
    l.addAll (c :: run) = { l with latest := (Control.merged (c :: run)).reverse ++ l.latest } := by
  rw [← l.addAll_merged hchain fun d hd => (hfits d hd).inFile]
  have hfirst := hfits c (List.mem_cons_self ..)
  cases c with
  | literal text location =>
    rw [Control.merged, addAll, addAll, add, addLiteral, if_neg (by simp [hfirst.1])]
    split
    · next before start latest hlatest =>
      exact absurd ⟨.literal before start, by simp [hlatest], rfl⟩ hjoins
    · rfl
  | root children => exact hfirst.elim
  | _ =>
    obtain rfl := Control.eq_nil_of_isChain hchain rfl
    simp [addAll, add, append, Control.merged]

/-- What does not join the last of a run does not join the run when it is merged. -/
theorem not_joins_merged {c next : Control} {run : List Control}
    (hchain : (c :: run).IsChain (Control.joined · ·))
    (happart : Control.joined ((c :: run).getLast (List.cons_ne_nil c run)) next = false) :
    ¬ Joins { l with latest := (Control.merged (c :: run)).reverse ++ l.latest } next := by
  rintro ⟨d, hd, hjoined⟩
  cases c with
  | literal text location =>
    have hlast : (List.getLast (.literal text location :: run) (List.cons_ne_nil _ run)).isLiteral = true := by
      rcases List.mem_cons.1 (List.getLast_mem (List.cons_ne_nil (.literal text location) run)) with h | h
      · rw [h]; rfl
      · exact (Control.isLiteral_of_isChain hchain _ h).1
    rw [Control.joined, hlast, Bool.true_and] at happart
    rw [Control.joined, happart, Bool.and_false] at hjoined
    cases hjoined
  | _ =>
    obtain rfl := Control.eq_nil_of_isChain hchain rfl
    obtain rfl := Option.mem_some.1 hd
    cases hjoined

/-- Runs that do not join each other are added one after another. -/
theorem addAll_flatten {runs : List (List Control)} (hne : [] ∉ runs)
    (hchain : ∀ run ∈ runs, run.IsChain (Control.joined · ·))
    (hapart : runs.IsChain fun a b => ∃ ha hb, Control.joined (a.getLast ha) (b.head hb) = false)
    (hfits : ∀ c ∈ runs.flatten, c.Fits path l.dropLiterals)
    (hjoins : ∀ c ∈ runs.flatten.head?, ¬ l.Joins c) :
    l.addAll runs.flatten = { l with latest := (runs.flatMap Control.merged).reverse ++ l.latest } := by
  induction runs generalizing l with
  | nil => simp [addAll]
  | cons run runs ih =>
    rw [List.mem_cons, not_or] at hne
    obtain ⟨c, more, rfl⟩ := List.exists_cons_of_ne_nil (Ne.symm hne.1)
    rw [List.flatten_cons, List.forall_mem_append] at hfits
    obtain ⟨hrun, hrest⟩ := List.forall_mem_cons.1 hchain
    rw [List.isChain_cons] at hapart
    -- the runs behind meet the merged run in place of what was there before
    have hnext : ∀ d ∈ runs.flatten.head?,
        ¬ Joins { l with latest := (Control.merged (c :: more)).reverse ++ l.latest } d := by
      intro d hd
      cases runs with
      | nil => cases hd
      | cons next runs =>
        obtain ⟨_, hne', hlast⟩ := hapart.1 next rfl
        obtain ⟨e, others, rfl⟩ := List.exists_cons_of_ne_nil hne'
        obtain rfl := Option.mem_some.1 hd
        exact not_joins_merged hrun hlast
    rw [List.flatten_cons, addAll_append, addAll_run (hjoins c rfl) hrun hfits.1,
      ih (l := { l with latest := (Control.merged (c :: more)).reverse ++ l.latest }) hne.2 hrest hapart.2
        hfits.2 hnext]
    simp

mutual

@[simp] theorem dropLiterals_add (l : Listing) (c : Control) : (l.add c).dropLiterals = l.dropLiterals := by
  cases c with
  | root children =>
    rw [add]
    exact dropLiterals_addAll l children
  | literal text location =>
    rw [add]
    unfold addLiteral
    repeat' split
    all_goals rfl
  | _ => rw [add]; rfl

@[simp] theorem dropLiterals_addAll (l : Listing) (controls : List Control) :
    (l.addAll controls).dropLiterals = l.dropLiterals := by
  cases controls with
  | nil => rfl
  | cons c controls => rw [addAll, dropLiterals_addAll, dropLiterals_add]

end

/-- Dropped literals make no difference. -/
theorem addAll_filter (h : l.dropLiterals = true) (controls : List Control) :
    l.addAll (controls.filter (!·.isLiteral)) = l.addAll controls := by
  induction controls generalizing l with
  | nil => rfl
  | cons c controls ih =>
    have hrest := ih (l := l.add c) (by rw [dropLiterals_add, h])
    cases c with
    | literal text location =>
      rw [addAll, ← hrest, add, addLiteral, if_pos h]
      rfl
    | _ => rw [addAll, ← hrest]; rfl

/-- The controls of a file that are kept fit. -/
theorem fits_kept {drop : Bool} {controls : List Control}
    (hfile : ∀ c ∈ Control.spliceAll controls, c.InFile path) :
    ∀ c ∈ Control.kept drop controls, c.Fits path drop := by
  intro c hc
  have hmem : c ∈ Control.spliceAll controls := by
    cases drop with
    | true => exact List.mem_of_mem_filter hc
    | false => exact hc
  cases c with
  | root children => exact Control.root_notMem_spliceAll controls children hmem
  | literal text location =>
    refine ⟨?_, hfile _ hmem⟩
    cases drop with
    | true => cases (List.mem_filter.1 hc).2
    | false => rfl
  | _ => trivial

theorem addAll_kept (l : Listing) {drop : Bool} (hdrop : drop = true → l.dropLiterals = true)
    (controls : List Control) : l.addAll (Control.kept drop controls) = l.addAll controls := by
  cases drop with
  | true => exact (l.addAll_filter (hdrop rfl) _).trans (l.addAll_spliceAll controls)
  | false => exact l.addAll_spliceAll controls

/-- To gather controls gives their normal form. -/
theorem addAll_empty {drop : Bool} {controls : List Control}
    (hfile : ∀ c ∈ Control.spliceAll controls, c.InFile path) :
    (empty drop).addAll controls = ⟨drop, (Control.normalForm drop controls).reverse, none⟩ := by
  have hkept : (empty drop).addAll (Control.kept drop controls) = (empty drop).addAll controls :=
    addAll_kept _ id controls
  have hflatten := List.flatten_splitBy Control.joined (Control.kept drop controls)
  have hfits : ∀ c ∈ ((Control.kept drop controls).splitBy Control.joined).flatten, c.Fits path drop := by
    rw [hflatten]
    exact fits_kept hfile
  have hjoins : ∀ c ∈ ((Control.kept drop controls).splitBy Control.joined).flatten.head?,
      ¬ (empty drop).Joins c := by
    rintro c - ⟨d, hd, -⟩
    cases hd
  rw [← hkept, ← hflatten, addAll_flatten (List.nil_notMem_splitBy _ _)
    (fun _ => List.isChain_of_mem_splitBy) (List.isChain_getLast_head_splitBy _ _) hfits hjoins]
  simp [empty, Control.normalForm]

theorem addAll_flatMap_merged (l : Listing) {runs : List (List Control)}
    (hchain : ∀ run ∈ runs, run.IsChain (Control.joined · ·))
    (hfile : ∀ c ∈ runs.flatten, c.InFile path) :
    l.addAll (runs.flatMap Control.merged) = l.addAll runs.flatten := by
  induction runs generalizing l with
  | nil => rfl
  | cons run runs ih =>
    obtain ⟨hrun, hrest⟩ := List.forall_mem_cons.1 hchain
    rw [List.flatten_cons, List.forall_mem_append] at hfile
    rw [List.flatMap_cons, List.flatten_cons, addAll_append, addAll_append, addAll_merged l hrun hfile.1,
      ih _ hrest hfile.2]

/-- The normal form of controls is added as they are. -/
theorem addAll_normalForm (l : Listing) {drop : Bool} (hdrop : drop = true → l.dropLiterals = true)
    {controls : List Control} (hfile : ∀ c ∈ Control.spliceAll controls, c.InFile path) :
    l.addAll (Control.normalForm drop controls) = l.addAll controls := by
  have hruns : ∀ c ∈ ((Control.kept drop controls).splitBy Control.joined).flatten, c.InFile path := by
    rw [List.flatten_splitBy]
    exact fun c hc => (fits_kept hfile c hc).inFile
  rw [Control.normalForm, addAll_flatMap_merged l (fun _ => List.isChain_of_mem_splitBy) hruns,
    List.flatten_splitBy, addAll_kept l hdrop]

inductive Step where
  | add (control : Option Control)
  | extend (controls : List (Option Control))

def Step.given : Step → List Control
  | .add control => control.toList
  | .extend controls => controls.flatMap Option.toList

def take (l : Listing) : Step → Listing
  | .add control => l.add? control
  | .extend controls => controls.foldl add? l

def result (l : Listing) : Except PathMismatch (List Control) :=
  match l.mismatch with
  | some mismatch => .error mismatch
  | none => .ok l.controls

def build (dropLiterals : Bool) (steps : List Step) : Except PathMismatch (List Control) :=
  (steps.foldl take (empty dropLiterals)).result

theorem take_eq (l : Listing) (step : Step) : l.take step = l.addAll step.given := by
  cases step with
  | add control => cases control <;> simp [take, Step.given, add?, addAll]
  | extend controls =>
    rw [take, Step.given]
    induction controls generalizing l with
    | nil => rfl
    | cons control controls ih =>
      rw [List.foldl_cons, ih, List.flatMap_cons, addAll_append]
      cases control <;> simp [add?, addAll]

theorem foldl_take (l : Listing) (steps : List Step) :
    steps.foldl take l = l.addAll (steps.flatMap Step.given) := by
  induction steps generalizing l with
  | nil => rfl
  | cons step steps ih => rw [List.foldl_cons, ih, List.flatMap_cons, addAll_append, take_eq]

theorem build_eq {steps : List Step}
    (hfile : ∀ c ∈ Control.spliceAll (steps.flatMap Step.given), c.InFile path) (drop : Bool) :
    build drop steps = .ok (Control.normalForm drop (steps.flatMap Step.given)) := by
  rw [build, foldl_take, addAll_empty hfile]
  simp [result, controls]

/-- Parts that were gathered with their literals are added as what they were gathered from. -/
theorem addAll_roots (l : Listing) {groups : List (List Step)}
    (hfile : ∀ group ∈ groups, ∀ c ∈ Control.spliceAll (group.flatMap Step.given), c.InFile path) :
    l.addAll (groups.map fun group => .root (Control.normalForm false (group.flatMap Step.given))) =
      l.addAll (groups.flatten.flatMap Step.given) := by
  induction groups generalizing l with
  | nil => rfl
  | cons group groups ih =>
    obtain ⟨hgroup, hrest⟩ := List.forall_mem_cons.1 hfile
    rw [List.map_cons, addAll, add, ih _ hrest, List.flatten_cons, List.flatMap_append, addAll_append,
      addAll_normalForm l (by simp) hgroup]

/-- Gathering in steps gives the normal form of the controls that are given, in whatever steps. So nothing
changes if groups of the steps are gathered first, with their literals, and put into a container each; nor
if what was gathered is gathered again. -/
theorem build_normalForm (drop : Bool) (steps : List Step) (path : Text)
    (hfile : ∀ c ∈ Control.spliceAll (steps.flatMap Step.given), c.InFile path) :
    let controls := Control.normalForm drop (steps.flatMap Step.given)
    build drop steps = .ok controls ∧
    (∀ groups : List (List Step), groups.flatten = steps →
      ∃ parts : List (List Control), groups.map (build false) = parts.map .ok ∧
        build drop (parts.map fun part => .add (some (.root part))) = .ok controls) ∧
    ∀ again : List Step, again.flatMap Step.given = controls → build drop again = .ok controls := by
  intro controls
  have hbuild := build_eq hfile drop
  refine ⟨hbuild, ?_, ?_⟩
  · rintro groups rfl
    have hgroups : ∀ group ∈ groups, ∀ c ∈ Control.spliceAll (group.flatMap Step.given),
        c.InFile path := by
      intro group hgroup c hc
      simp only [Control.spliceAll_eq_flatMap, List.mem_flatMap, List.mem_flatten] at hfile hc
      obtain ⟨control, ⟨step, hstep, hcontrol⟩, hc⟩ := hc
      exact hfile c ⟨control, ⟨step, ⟨group, hgroup, hstep⟩, hcontrol⟩, hc⟩
    refine ⟨groups.map fun group => Control.normalForm false (group.flatMap Step.given), ?_, ?_⟩
    · rw [List.map_map]
      exact List.map_congr_left fun group hgroup => build_eq (hgroups group hgroup) false
    · rw [← hbuild, build, build, foldl_take, foldl_take, ← addAll_roots _ hgroups,
        List.map_map, List.flatMap_map]
      exact congrArg (fun given => (addAll _ given).result) (List.flatMap_pure_eq_map _ groups)
  · intro again hagain
    have hnormal := (empty drop).addAll_normalForm id hfile
    rw [← hbuild, build, build, foldl_take, foldl_take, hagain]
    exact congrArg result hnormal

/-- A run that starts in one container and goes on in another. -/
theorem build_normalForm_nested :
    let place (line : Nat) : Location := ⟨"a.aspx".toList, ⟨line, 0⟩, ⟨line, 1⟩⟩
    let first : Step := .add (some (.root [.code ['x'] (place 1), .root [.literal ['a'] (place 2)]]))
    let second : Step := .extend [none, some (.root [.literal ['b'] (place 3)])]
    let whole : Location := ⟨"a.aspx".toList, ⟨2, 0⟩, ⟨3, 1⟩⟩
    let controls : List Control := [.code ['x'] (place 1), .literal ['a', 'b'] whole]
    build false [first, second] = .ok controls ∧
      (∃ parts : List (List Control), [build false [first], build false [second]] = parts.map .ok ∧
        build false (parts.map fun part => .add (some (.root part))) = .ok controls) ∧
      build false [.extend (controls.map some)] = .ok controls := by
  intro place first second whole controls
  have hfile : ∀ c ∈ Control.spliceAll ([first, second].flatMap Step.given),
      c.InFile "a.aspx".toList := by
    intro c hc
    have hc : c ∈ [.code ['x'] (place 1), .literal ['a'] (place 2), .literal ['b'] (place 3)] := hc
    simp only [List.mem_cons, List.not_mem_nil, or_false] at hc
    rcases hc with rfl | rfl | rfl
    · trivial
    · rfl
    · rfl
  obtain ⟨hbuild, hgroups, hagain⟩ := build_normalForm false [first, second] "a.aspx".toList hfile
  exact ⟨hbuild, hgroups [[first], [second]] rfl, hagain [.extend (controls.map some)] rfl⟩

end Listing

end ServerPages
