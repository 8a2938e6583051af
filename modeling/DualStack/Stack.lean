/-
Bounded stacks.

A stack holds its items, top first, and the number of slots still free.  Its
capacity is the sum of the two and is not stored, so no operation can exceed it
and none can change it: a push spends a free slot, a pop gives one back.  An
operation that lacks operands or room has no result.
-/

namespace DualStack

/-- A stack with room for finitely many values. -/
structure Stack (α : Type) where
  /-- The values, top first. -/
  items : List α
  /-- How many more values fit. -/
  free : Nat

namespace Stack

variable {α : Type}

/-- The empty stack of a given capacity. -/
def empty (capacity : Nat) : Stack α :=
  ⟨[], capacity⟩

/-- How many values the stack holds. -/
def size (s : Stack α) : Nat :=
  s.items.length

/-- How many values the stack can hold. -/
def capacity (s : Stack α) : Nat :=
  s.size + s.free

/-- The values from the bottom to the top. -/
def values (s : Stack α) : List α :=
  s.items.reverse

/-- Remove every value. -/
def clear (s : Stack α) : Stack α :=
  ⟨[], s.capacity⟩

/-- Put a value on top. -/
def push? (v : α) (s : Stack α) : Option (Stack α) :=
  match s.free with
  | 0 => none
  | free + 1 => some ⟨v :: s.items, free⟩

/-- Take the top value off. -/
def pop? (s : Stack α) : Option (α × Stack α) :=
  match s.items with
  | [] => none
  | v :: items => some (v, ⟨items, s.free + 1⟩)

/-- The top value. -/
def peek? (s : Stack α) : Option α :=
  s.items.head?

/-- Replace the top value. -/
def setTop? (v : α) (s : Stack α) : Option (Stack α) :=
  match s.items with
  | [] => none
  | _ :: items => some { s with items := v :: items }

/-- Copy the top value: `a -- a a`. -/
def dup? (s : Stack α) : Option (Stack α) :=
  match s.items with
  | [] => none
  | v :: _ => s.push? v

/-- Remove the top value: `a --`. -/
def drop? (s : Stack α) : Option (Stack α) :=
  s.pop?.map Prod.snd

/-- Exchange the top two values: `a b -- b a`. -/
def swap? (s : Stack α) : Option (Stack α) :=
  match s.items with
  | b :: a :: items => some { s with items := a :: b :: items }
  | _ => none

/-- Copy the value under the top: `a b -- a b a`. -/
def over? (s : Stack α) : Option (Stack α) :=
  match s.items with
  | _ :: a :: _ => s.push? a
  | _ => none

/-- Bring the third value to the top: `a b c -- b c a`. -/
def rot? (s : Stack α) : Option (Stack α) :=
  match s.items with
  | c :: b :: a :: items => some { s with items := a :: c :: b :: items }
  | _ => none

@[simp] theorem capacity_empty (n : Nat) : (empty n : Stack α).capacity = n := by
  simp [capacity, size, empty]

@[simp] theorem capacity_clear (s : Stack α) : s.clear.capacity = s.capacity := by
  simp [capacity, size, clear]

@[simp] theorem values_empty (n : Nat) : (empty n : Stack α).values = [] := rfl

@[simp] theorem values_clear (s : Stack α) : s.clear.values = [] := rfl

/-! ### What each operation does to the values

`values` reads the stack from the bottom, so a push appends and a pop removes the last value.
Every operation that has a result leaves the capacity as it was.
-/

theorem size_le_capacity (s : Stack α) : s.size ≤ s.capacity :=
  Nat.le_add_right _ _

@[simp] theorem length_values (s : Stack α) : s.values.length = s.size := by
  simp [values, size]

/-- A push has no result exactly on a full stack. -/
theorem push?_eq_none_iff {v : α} {s : Stack α} : s.push? v = none ↔ s.size = s.capacity := by
  unfold push? capacity
  cases s.free with
  | zero => simp
  | succ n => simp

theorem push?_values {v : α} {s t : Stack α} (h : s.push? v = some t) :
    t.values = s.values ++ [v] ∧ t.capacity = s.capacity := by
  obtain ⟨items, free⟩ := s
  cases free with
  | zero => simp [push?] at h
  | succ n =>
    simp only [push?, Option.some.injEq] at h
    subst h
    refine ⟨by simp [values], ?_⟩
    simp only [capacity, size, List.length_cons]
    omega

theorem pop?_values {v : α} {s t : Stack α} (h : s.pop? = some (v, t)) :
    s.values = t.values ++ [v] ∧ t.capacity = s.capacity := by
  obtain ⟨items, free⟩ := s
  cases items with
  | nil => simp [pop?] at h
  | cons w items =>
    simp only [pop?, Option.some.injEq, Prod.mk.injEq] at h
    obtain ⟨rfl, rfl⟩ := h
    refine ⟨by simp [values], ?_⟩
    simp only [capacity, size, List.length_cons]
    omega

theorem swap?_values {s t : Stack α} (h : s.swap? = some t) :
    (∃ below a b, s.values = below ++ [a, b] ∧ t.values = below ++ [b, a]) ∧
      t.capacity = s.capacity := by
  obtain ⟨items, free⟩ := s
  match items, h with
  | b :: a :: items, h =>
    simp only [swap?, Option.some.injEq] at h
    subst h
    exact ⟨⟨items.reverse, a, b, by simp [values], by simp [values]⟩, by simp [capacity, size]⟩

theorem rot?_values {s t : Stack α} (h : s.rot? = some t) :
    (∃ below a b c, s.values = below ++ [a, b, c] ∧ t.values = below ++ [b, c, a]) ∧
      t.capacity = s.capacity := by
  obtain ⟨items, free⟩ := s
  match items, h with
  | c :: b :: a :: items, h =>
    simp only [rot?, Option.some.injEq] at h
    subst h
    exact ⟨⟨items.reverse, a, b, c, by simp [values], by simp [values]⟩, by simp [capacity, size]⟩

end Stack

end DualStack
