/-
What a primitive word can do to a machine.

The data stack changes within its capacity, a variable gets a value, something
goes to the sink, something happens in the world: `Machine.Move` lists what can
happen in one step, and `Effect.Basic.moves` says that an effect made of base
effects, and so every primitive, makes moves of the list and nothing else,
whether it succeeds or aborts.  What no single move can change, no primitive
changes: the return stack, the words and the call depth follow at once.
-/
import Mathlib.Logic.Relation
import DualStack.Proofs.Effects

namespace DualStack

/-- One thing a base effect can do to a machine. -/
inductive Machine.Move (m : Machine) : Machine → Prop
  /-- The data stack changes within its capacity. -/
  | data (s : Stack Value) (hcap : s.capacity = m.data.capacity) : Move m { m with data := s }
  /-- A variable gets a value. -/
  | store (name : String) (v : Value) : Move m (m.store name v)
  /-- The sink accepts bytes. -/
  | sink (bytes : List UInt8) : Move m { m with sink := m.sink.accept bytes }
  /-- Something happens outside. -/
  | world (w : World) : Move m { m with world := w }

/-- Any number of moves, one after the other. -/
abbrev Machine.Moves : Machine → Machine → Prop :=
  Relation.ReflTransGen Machine.Move

/-- Moves leave the loop bookkeeping, the words and the call depth alone. -/
theorem Machine.Moves.leaves {m n : Machine} (h : Moves m n) :
    n.returns = m.returns ∧ n.words = m.words ∧ n.depth = m.depth := by
  induction h with
  | refl => exact ⟨rfl, rfl, rfl⟩
  | tail _ hmove ih =>
      cases hmove with
      | data | store | sink | world => exact ih

namespace Stack

variable {α : Type} {s t : Stack α}

theorem capacity_pop? {v : α} (h : s.pop? = some (v, t)) : t.capacity = s.capacity :=
  (pop?_values h).2

/-- Each operation trades values for free slots one by one, or leaves both counts alone. -/
theorem Operation.capacity {change : Stack α → Option (Stack α)} (hop : Operation change)
    (h : change s = some t) : t.capacity = s.capacity := by
  cases hop with
  | push v => exact (push?_values h).2
  | setTop v =>
      obtain ⟨items, free⟩ := s
      cases items with
      | nil => simp [setTop?] at h
      | cons w items =>
          simp only [setTop?, Option.some.injEq] at h
          subst h
          rfl
  | dup =>
      unfold dup? at h
      split at h
      · exact absurd h (by simp)
      · exact (push?_values h).2
  | drop =>
      obtain ⟨⟨v, t'⟩, hpop, rfl⟩ := Option.map_eq_some_iff.mp h
      exact capacity_pop? hpop
  | swap => exact (swap?_values h).2
  | copyUnder =>
      unfold over? at h
      split at h
      · exact (push?_values h).2
      · exact absurd h (by simp)
  | rot => exact (rot?_values h).2

end Stack

namespace Effect

variable {α β : Type} {R : Machine → Machine → Prop}

/-- However the effect ends, it leaves a machine that `R` relates to the one before. -/
def Within (R : Machine → Machine → Prop) (e : Effect α) : Prop :=
  ∀ m, R m (e.after m)

theorem Within.bind (htrans : ∀ {a b c}, R a b → R b c → R a c) {e : Effect α}
    {f : α → Effect β} (he : Within R e) (hf : ∀ a, Within R (f a)) : Within R (e >>= f) := by
  intro m
  have hfirst := he m
  cases hm : e m with
  | ok a n =>
      rw [after_ok hm] at hfirst
      rw [after, bind_ok hm]
      exact htrans hfirst (hf a n)
  | error reason n =>
      rw [after_error hm] at hfirst
      rw [after, bind_error hm]
      exact hfirst

open Machine (Moves)

theorem onData_moves {change : Stack Value → Option (Stack Value)}
    (h : Stack.Operation change) : Within Moves (onData change) := by
  intro m
  unfold after onData
  cases hm : change m.data with
  | none => exact .refl
  | some s => exact .single (.data s (h.capacity hm))

theorem pop_moves : Within Moves pop := by
  intro m
  unfold after pop
  cases hm : m.data.pop? with
  | none => exact .refl
  | some popped =>
      obtain ⟨v, s⟩ := popped
      exact .single (.data s (Stack.capacity_pop? hm))

theorem peek_moves : Within Moves peek := by
  intro m
  unfold after peek
  cases m.data.peek? <;> exact .refl

theorem peekReturn_moves : Within Moves peekReturn := by
  intro m
  unfold after peekReturn
  cases m.returns.peek? <;> exact .refl

/-- Printing makes the sink accept the bytes, or as many as fit. -/
theorem print_moves (bytes : List UInt8) : Within Moves (print bytes) := by
  intro m
  unfold after print Sink.write
  cases m.sink.room with
  | none => exact .single (.sink bytes)
  | some room =>
      by_cases hfits : bytes.length ≤ room
      · simp only [if_pos hfits]
        exact .single (.sink bytes)
      · simp only [if_neg hfits]
        exact .single (.sink (bytes.take room))

theorem attempt_moves (act : World.Act α) : Within Moves (attempt act) := by
  intro m
  unfold after attempt
  cases act m.world with
  | ok a w => exact .single (.world w)
  | error fault w => exact .single (.world w)

/-- **Effects made of base effects make moves of the list and nothing else, however they
end.** -/
theorem Basic.moves {e : Effect α} (h : Basic e) : Within Moves e := by
  induction h with
  | pure a => exact fun _ => .refl
  | bind _ _ ihe ihf => exact ihe.bind Relation.ReflTransGen.trans ihf
  | onData hop => exact onData_moves hop
  | pop => exact pop_moves
  | peek => exact peek_moves
  | peekReturn => exact peekReturn_moves
  | store name v => exact fun _ => .single (.store name v)
  | load name _ ih => exact fun m => ih (m.load name) m
  | print bytes => exact print_moves bytes
  | attempt act => exact attempt_moves act

end Effect

end DualStack
