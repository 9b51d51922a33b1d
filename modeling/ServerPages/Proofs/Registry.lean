import Mathlib.Data.Finset.Card
import Mathlib.Data.List.Induction
import ServerPages.Config.Basic

/-! What a configuration registers. Entries go into a table one after another, under their names in lower case,
and an entry replaces what was there. So a name leads to the last entry with it, a control of the configuration
before a standard one, with the data types that this entry declares and no others; and there are as many
entries as there are different names. -/

namespace ServerPages

namespace Table

variable {κ α : Type} [DecidableEq κ]

def insertAll (table : Table κ α) (entries : List (κ × α)) : Table κ α :=
  entries.foldl (fun table entry => table.insert entry.1 entry.2) table

theorem insertAll_append (table : Table κ α) (front back : List (κ × α)) :
    table.insertAll (front ++ back) = (table.insertAll front).insertAll back := List.foldl_append

/-- Of several entries for a key the last counts. -/
theorem find?_insertAll (table : Table κ α) (entries : List (κ × α)) (key : κ) :
    (table.insertAll entries).find? key =
      ((entries.reverse.find? (·.1 = key)).map Prod.snd).or (table.find? key) := by
  induction entries using List.reverseRecOn with
  | nil => rfl
  | append_singleton entries entry ih =>
    rw [insertAll_append, insertAll, List.foldl_cons, List.foldl_nil, find?_insert, ih, List.reverse_append,
      List.reverse_singleton, List.singleton_append, List.find?_cons]
    by_cases hkey : key = entry.1
    · simp [hkey]
    · simp [hkey, Ne.symm hkey]

def keys (table : Table κ α) : List κ := table.entries.map Prod.fst

theorem keys_insert (table : Table κ α) (key : κ) (value : α) :
    (table.insert key value).keys = key :: table.keys.filter (· ≠ key) := by
  simp [keys, insert, List.filter_map, Function.comp_def]

theorem nodup_keys_insertAll {table : Table κ α} (h : table.keys.Nodup) (entries : List (κ × α)) :
    (table.insertAll entries).keys.Nodup := by
  induction entries using List.reverseRecOn with
  | nil => exact h
  | append_singleton entries entry ih =>
    rw [insertAll_append, insertAll, List.foldl_cons, List.foldl_nil, keys_insert, List.nodup_cons]
    exact ⟨fun hmem => by simpa using (List.mem_filter.1 hmem).2, ih.filter _⟩

theorem mem_keys_insertAll (table : Table κ α) (entries : List (κ × α)) (key : κ) :
    key ∈ (table.insertAll entries).keys ↔ key ∈ table.keys ∨ key ∈ entries.map Prod.fst := by
  induction entries using List.reverseRecOn with
  | nil => simp [insertAll]
  | append_singleton entries entry ih =>
    rw [insertAll_append, insertAll, List.foldl_cons, List.foldl_nil, keys_insert, List.mem_cons,
      List.mem_filter, ih, List.map_append, List.mem_append, List.map_singleton, List.mem_singleton]
    by_cases hkey : key = entry.1
    · simp [hkey]
    · simp [hkey]

/-- A table has one entry for each different key that went in. -/
theorem size_insertAll_empty (entries : List (κ × α)) :
    ((empty : Table κ α).insertAll entries).size = (entries.map Prod.fst).toFinset.card := by
  have hempty : (empty : Table κ α).keys.Nodup := List.nodup_nil
  have hnodup := nodup_keys_insertAll hempty entries
  rw [size, ← List.length_map Prod.fst, ← keys, ← List.toFinset_card_of_nodup hnodup]
  congr 1
  ext key
  rw [List.mem_toFinset, List.mem_toFinset, mem_keys_insertAll]
  simp [keys, empty]

end Table

/-- The last element that is meant is the first when no other is. -/
theorem find?_reverse_of_unique {α : Type} {p : α → Bool} {as : List α}
    (h : as.Pairwise fun a b => ¬ (p a = true ∧ p b = true)) : as.reverse.find? p = as.find? p := by
  induction as with
  | nil => rfl
  | cons a as ih =>
    obtain ⟨hfirst, hrest⟩ := List.pairwise_cons.1 h
    rw [List.reverse_cons, List.find?_append, ih hrest, List.find?_cons, List.find?_cons, List.find?_nil]
    cases ha : p a with
    | true =>
      have hnone : as.find? p = none := List.find?_eq_none.2 fun b hb hp => hfirst b hb ⟨ha, hp⟩
      rw [hnone]
      rfl
    | false => exact Option.or_none

theorem Text.decide_lower_eq (a b : Text) : decide (a.lower = b.lower) = a.same b := by
  rw [same, Bool.eq_iff_iff, decide_eq_true_iff, beq_iff_eq]

theorem Registered.get?_insertAll {α ε : Type} (r : Registered α) (entries : List ε)
    (scope name : ε → Text) (value : ε → α) (queryScope queryName : Text) :
    Registered.get? (Table.insertAll r (entries.map fun e => (((scope e).lower, (name e).lower), value e)))
        queryScope queryName =
      ((entries.reverse.find? fun e => (scope e).same queryScope && (name e).same queryName).map value).or
        (r.get? queryScope queryName) := by
  rw [get?, Table.find?_insertAll, ← List.map_reverse, List.find?_map, Option.map_map]
  simp only [Function.comp_def, Prod.mk.injEq, Bool.decide_and, Text.decide_lower_eq]
  rfl

/-- A control has the data types that are declared for it. -/
theorem ControlInfo.make_eq (typeName : QualifiedName) (childrenAsProperties : Bool)
    (dataTypes : List (Text × DataType)) :
    make typeName childrenAsProperties dataTypes = ⟨typeName, childrenAsProperties,
      Table.insertAll .empty (dataTypes.map fun entry => (entry.1.lower, entry.2))⟩ := by
  induction dataTypes using List.reverseRecOn with
  | nil => rfl
  | append_singleton dataTypes entry ih =>
    rw [make, List.foldl_append, ← make, ih, List.map_append, Table.insertAll_append]
    rfl

/-- Of several data types for one name the last counts. -/
theorem ControlInfo.dataType?_make (typeName : QualifiedName) (childrenAsProperties : Bool)
    (dataTypes : List (Text × DataType)) (name : Text) :
    (make typeName childrenAsProperties dataTypes).dataType? name =
      (dataTypes.reverse.find? (·.1.same name)).map Prod.snd := by
  rw [make_eq, dataType?, Table.find?_insertAll, ← List.map_reverse, List.find?_map]
  simp only [Function.comp_def, Text.decide_lower_eq, Option.map_map, Table.find?_empty, Option.or_none]

namespace Standard

def Entry.names (entry : Entry) (queryScope queryName : Text) : Bool :=
  scope.same queryScope && Text.same entry.name.toList queryName

/-- No two standard controls have one name. -/
theorem nodup_names : (entries.map fun entry => Text.lower entry.name.toList).Nodup := by
  decide +kernel

theorem registry_eq : registry = Table.insertAll .empty
    (entries.map fun entry => ((scope.lower, Text.lower entry.name.toList), entry.info)) := by
  rw [registry, Table.insertAll, List.foldl_map]
  rfl

theorem get?_registry (queryScope queryName : Text) : Registered.get? registry queryScope queryName =
    (entries.find? (·.names queryScope queryName)).map Entry.info := by
  have hunique : entries.Pairwise fun a b =>
      ¬ (a.names queryScope queryName = true ∧ b.names queryScope queryName = true) := by
    refine (List.pairwise_map.1 nodup_names).imp fun {a b} hne hboth => hne ?_
    simp only [Entry.names, Text.same, Bool.and_eq_true, beq_iff_eq] at hboth
    exact hboth.1.2.trans hboth.2.2.symm
  rw [registry_eq, Registered.get?_insertAll, ← find?_reverse_of_unique hunique]
  exact Option.or_none

end Standard

def ControlConfig.names (control : ControlConfig) (scope name : Text) : Bool :=
  control.scope.same scope && control.name.same name

namespace Config

/-- The prefixes and names that are registered, first the standard ones. -/
def registeredNames (c : Config) : List (Text × Text) :=
  (if c.standardControls then Standard.entries.map fun entry => (Standard.scope, entry.name.toList) else []) ++
    c.controls.map fun control => (control.scope, control.name)

theorem registry_eq (c : Config) : c.registry =
    Table.insertAll (if c.standardControls then Standard.registry else .empty)
      (c.controls.map fun control => ((control.scope.lower, control.name.lower), control.info)) := by
  rw [registry, Table.insertAll, List.foldl_map]
  rfl

theorem size_registry (c : Config) : c.registry.size =
    (c.registeredNames.map fun pair => (pair.1.lower, pair.2.lower)).toFinset.card := by
  have hall : c.registry = Table.insertAll .empty
      ((if c.standardControls then Standard.entries.map fun entry =>
          ((Standard.scope.lower, Text.lower entry.name.toList), entry.info) else []) ++
        c.controls.map fun control => ((control.scope.lower, control.name.lower), control.info)) := by
    rw [registry_eq, Table.insertAll_append]
    cases c.standardControls with
    | true => rw [if_pos rfl, if_pos rfl, Standard.registry_eq]
    | false => rfl
  rw [hall, Table.size_insertAll_empty, registeredNames]
  cases c.standardControls <;> simp [Function.comp_def]

/-- What a configuration knows of a prefix and a name, up to ASCII case, is what its last control for them
says; if it has none, a standard control, if these are known. A control has the data types that it declares,
of two for one name, up to ASCII case, the later, and nothing of what it replaces. There are as many
controls as there are different prefixes and names. -/
theorem registry_lastWins (c : Config) :
    (∀ scope name, Registered.get? c.registry scope name =
      ((c.controls.reverse.find? (·.names scope name)).map ControlConfig.info).or
        (if c.standardControls then (Standard.entries.find? (·.names scope name)).map Standard.Entry.info
        else none)) ∧
    (∀ control : ControlConfig, control.info.typeName = .ofText control.typeName ∧
      control.info.childrenAsProperties = control.childrenAsProperties ∧
      ∀ name, control.info.dataType? name =
        (control.dataTypes.reverse.find? (·.1.same name)).map Prod.snd) ∧
    c.registry.size = (c.registeredNames.map fun pair => (pair.1.lower, pair.2.lower)).toFinset.card := by
  refine ⟨fun scope name => ?_, fun control => ⟨?_, ?_, fun name => ?_⟩, size_registry c⟩
  · rw [registry_eq, Registered.get?_insertAll]
    congr 1
    cases c.standardControls with
    | true => exact Standard.get?_registry scope name
    | false => rfl
  · rw [ControlConfig.info, ControlInfo.make_eq]
  · rw [ControlConfig.info, ControlInfo.make_eq]
  · rw [ControlConfig.info, ControlInfo.dataType?_make]

end Config

end ServerPages
