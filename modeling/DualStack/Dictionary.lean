/-
Dictionaries: names and what they stand for.

A later entry replaces an earlier one of the same name, and no entry is ever
removed.  `find?_insert` is the whole theory: after an insertion the new name has
its value and every other name has the one it had.
-/

namespace DualStack

/-- A finite map from names, in the order of first insertion. -/
structure Dictionary (κ α : Type) where
  entries : List (κ × α)

namespace Dictionary

variable {κ α : Type} [DecidableEq κ]

/-- The dictionary without entries. -/
def empty : Dictionary κ α :=
  ⟨[]⟩

/-- Replace the value of a name, or add the name at the end. -/
def assign (name : κ) (value : α) : List (κ × α) → List (κ × α)
  | [] => [(name, value)]
  | (n, v) :: es => if n = name then (name, value) :: es else (n, v) :: assign name value es

/-- The value of the first entry of a name. -/
def lookup (name : κ) : List (κ × α) → Option α
  | [] => none
  | (n, v) :: es => if n = name then some v else lookup name es

/-- What a name stands for. -/
def find? (d : Dictionary κ α) (name : κ) : Option α :=
  lookup name d.entries

/-- Let a name stand for a value. -/
def insert (name : κ) (value : α) (d : Dictionary κ α) : Dictionary κ α :=
  ⟨assign name value d.entries⟩

theorem lookup_assign (name other : κ) (value : α) (es : List (κ × α)) :
    lookup other (assign name value es) = if name = other then some value else lookup other es := by
  induction es with
  | nil => rfl
  | cons e es ih =>
    obtain ⟨n, v⟩ := e
    unfold assign
    by_cases h : n = name
    · subst h
      simp only [if_true, lookup]
      split <;> rfl
    · simp only [h, if_false, lookup, ih]
      by_cases hn : n = other
      · subst hn
        simp [Ne.symm h]
      · simp [hn]

/-- An insertion changes what one name stands for and nothing else. -/
theorem find?_insert (name other : κ) (value : α) (d : Dictionary κ α) :
    (d.insert name value).find? other = if name = other then some value else d.find? other :=
  lookup_assign name other value d.entries

end Dictionary

end DualStack
