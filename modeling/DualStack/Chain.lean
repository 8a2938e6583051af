/-
Linked lists that know their length.

A chain grows at its front, where a new cell is linked to the cells that are there
already.  How many cells there are is noted beside them and never counted: a cell
added in front adds one to the note.  A whole sequence is made a chain from its last
value on, so that the first value ends up in front.  Chains made in these ways hold as
many cells as they have noted (`Counted`).
-/

namespace DualStack

/-- A linked list with its length. -/
structure Chain (α : Type) where
  /-- What the cells hold, front first. -/
  cells : List α
  /-- The number of cells, as it was noted. -/
  length : Nat

namespace Chain

variable {α : Type}

/-- The chain without a cell. -/
def empty : Chain α :=
  ⟨[], 0⟩

/-- A chain with a new cell in front. -/
def prepend (c : Chain α) (a : α) : Chain α :=
  ⟨a :: c.cells, c.length + 1⟩

/-- The chain of a sequence. -/
def ofList (as : List α) : Chain α :=
  as.reverse.foldl prepend empty

/-- Whether a chain has no cells. -/
def isEmpty (c : Chain α) : Bool :=
  c.length == 0

/-- What a cell holds, counted from the front. -/
def get? (c : Chain α) (n : Nat) : Option α :=
  c.cells[n]?

/-- The cells from `first` up to but not including `last`, as a chain of their own. -/
def slice (c : Chain α) (first last : Nat) : Chain α :=
  ofList ((c.cells.drop first).take (last - first))

/-- A chain has as many cells as were noted. -/
def Counted (c : Chain α) : Prop :=
  c.length = c.cells.length

theorem ofList_cons (a : α) (as : List α) : ofList (a :: as) = (ofList as).prepend a := by
  simp [ofList]

@[simp]
theorem cells_ofList (as : List α) : (ofList as).cells = as := by
  induction as with
  | nil => rfl
  | cons a as ih => rw [ofList_cons, prepend, ih]

theorem Counted.prepend {c : Chain α} (hc : c.Counted) (a : α) : (c.prepend a).Counted :=
  congrArg (· + 1) hc

theorem counted_ofList (as : List α) : (ofList as).Counted := by
  induction as with
  | nil => rfl
  | cons a as ih =>
      rw [ofList_cons]
      exact ih.prepend a

end Chain

end DualStack
