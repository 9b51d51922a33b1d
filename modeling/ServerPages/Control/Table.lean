/-! Tables in which a later entry for a key replaces an earlier one. -/

namespace ServerPages

/-- Entries under keys, no key twice. -/
structure Table (κ α : Type) where
  entries : List (κ × α)
  deriving Repr

namespace Table

variable {κ α : Type} [DecidableEq κ]

def empty : Table κ α := ⟨[]⟩

/-- The entry for a key takes the place of an earlier one. -/
def insert (table : Table κ α) (key : κ) (value : α) : Table κ α :=
  ⟨(key, value) :: table.entries.filter (·.1 ≠ key)⟩

def find? (table : Table κ α) (key : κ) : Option α :=
  (table.entries.find? (·.1 = key)).map Prod.snd

def size (table : Table κ α) : Nat := table.entries.length

@[simp]
theorem find?_empty (key : κ) : (empty : Table κ α).find? key = none := rfl

theorem find?_insert (table : Table κ α) (key other : κ) (value : α) :
    (table.insert key value).find? other = if other = key then some value else table.find? other := by
  by_cases h : other = key
  · simp [insert, find?, h]
  · have hkept : ∀ a : κ × α, (decide (a.1 ≠ key) = true ∧ decide (a.1 = other) = true) ↔
        a.1 = other := by
      intro a
      by_cases ha : a.1 = other
      · simp [ha, h]
      · simp [ha]
    have hne : key ≠ other := fun e => h e.symm
    simp only [insert, find?, List.find?_cons, hne, decide_false, List.find?_filter, hkept, h,
      if_false]

end Table

end ServerPages
