/-
Stacks are bounded lists.

What an action on a stack does where it succeeds is told by its stack comment, which is
written here over all values of the stack, bottom first (`Action.Does`): whatever lies
below the values it works on is part of the comment, before and after.  Where it fails is
told by two numbers, how many values it needs and how many more than it found it leaves.
`Action.outcome` says both of one action on any stack.

A machine carries out actions on either of its stacks as effects, and those hand back a
machine also where they abort.  `Side.act_eq` says that it is the one they were given.  No
action changes the capacity of a stack, so by induction on a history of actions on both
stacks, failed ones among them, each stack is still one of the size that the machine was
made with.
-/
import DualStack.Proofs.Effects

namespace DualStack.Stack

variable {α : Type}

/-- Something done with a stack. -/
inductive Action (α : Type) where
  | push (v : α)
  | pop
  | peek
  /-- Hand out the top value to be changed in its place. -/
  | edit (change : α → α)
  | dup
  | drop
  | swap
  | copyUnder
  | rot
  | clear

namespace Action

/-- Do something with a stack: what it hands out, and the stack as it is then. -/
def run? (s : Stack α) : Action α → Option (Option α × Stack α)
  | push v => (s.push? v).map (none, ·)
  | pop => s.pop?.map fun (v, t) => (some v, t)
  | peek => s.peek?.map fun v => (some v, s)
  | edit change => s.peek?.bind fun v => (s.setTop? (change v)).map (some v, ·)
  | dup => s.dup?.map (none, ·)
  | drop => s.drop?.map (none, ·)
  | swap => s.swap?.map (none, ·)
  | copyUnder => s.over?.map (none, ·)
  | rot => s.rot?.map (none, ·)
  | clear => some (none, s.clear)

/-- How many values an action needs. -/
def needs : Action α → Nat
  | push _ | clear => 0
  | pop | peek | edit _ | dup | drop => 1
  | swap | copyUnder => 2
  | rot => 3

/-- How many values an action adds to those it finds. -/
def adds : Action α → Nat
  | push _ | dup | copyUnder => 1
  | _ => 0

/-- The stack comment of an action: the values before it and after it, from the bottom, and
what it hands out. -/
inductive Does : Action α → List α → List α → Option α → Prop
  | push (below : List α) (v : α) : Does (push v) below (below ++ [v]) none
  | pop (below : List α) (a : α) : Does pop (below ++ [a]) below (some a)
  | peek (below : List α) (a : α) : Does peek (below ++ [a]) (below ++ [a]) (some a)
  | edit (below : List α) (a : α) (change : α → α) :
      Does (edit change) (below ++ [a]) (below ++ [change a]) (some a)
  | dup (below : List α) (a : α) : Does dup (below ++ [a]) (below ++ [a, a]) none
  | drop (below : List α) (a : α) : Does drop (below ++ [a]) below none
  | swap (below : List α) (a b : α) : Does swap (below ++ [a, b]) (below ++ [b, a]) none
  | copyUnder (below : List α) (a b : α) :
      Does copyUnder (below ++ [a, b]) (below ++ [a, b, a]) none
  | rot (below : List α) (a b c : α) : Does rot (below ++ [a, b, c]) (below ++ [b, c, a]) none
  | clear (all : List α) : Does clear all [] none

/-- An action leaves the values below those it needs alone. -/
theorem Does.below {a : Action α} {before after : List α} {answer : Option α}
    (h : Does a before after answer) (hclear : a ≠ .clear) :
    after.take (before.length - a.needs) = before.take (before.length - a.needs) := by
  cases h with
  | clear => exact absurd rfl hclear
  | push | pop | peek | edit | dup | drop | swap | copyUnder | rot => simp [needs]

/-! ### One action -/

/-- How an action goes that has this result: there are too few values or no room, or its stack
comment tells what it does. -/
inductive Outcome (a : Action α) (s : Stack α) : Option (Option α × Stack α) → Prop
  | short (h : s.size < a.needs) : Outcome a s none
  | full (h : s.capacity < s.size + a.adds) : Outcome a s none
  | done {t : Stack α} {answer : Option α} (hneeds : a.needs ≤ s.size)
      (hroom : s.size + a.adds ≤ s.capacity) (hcapacity : t.capacity = s.capacity)
      (hdoes : a.Does s.values t.values answer) : Outcome a s (some (answer, t))

/-- Where an action adds a value, it does so by a push, and the room for that is all it
lacks. -/
theorem outcome_push {a : Action α} {s : Stack α} {v : α} (hneeds : a.needs ≤ s.size)
    (hadds : a.adds = 1) (hdoes : a.Does s.values (s.values ++ [v]) none) :
    Outcome a s ((s.push? v).map (none, ·)) := by
  cases hpush : s.push? v with
  | none =>
      have hfull := push?_eq_none_iff.mp hpush
      exact .full (by omega)
  | some t =>
      obtain ⟨hvalues, hcapacity⟩ := push?_values hpush
      have hroom : s.size ≠ s.capacity := by
        intro hfull
        rw [push?_eq_none_iff.mpr hfull] at hpush
        exact absurd hpush (by simp)
      have hle := s.size_le_capacity
      exact .done hneeds (by omega) hcapacity (hvalues ▸ hdoes)

/-- Where an action adds none, there is always room. -/
theorem outcome_inPlace {a : Action α} {s t : Stack α} {answer : Option α}
    (hneeds : a.needs ≤ s.size) (hadds : a.adds = 0) (hcapacity : t.capacity = s.capacity)
    (hdoes : a.Does s.values t.values answer) : Outcome a s (some (answer, t)) := by
  have hle := s.size_le_capacity
  exact .done hneeds (by omega) hcapacity hdoes

/-- **An action does what its stack comment tells, unless there are too few values or no
room.** -/
theorem outcome (a : Action α) (s : Stack α) : Outcome a s (a.run? s) := by
  -- Items stand from the top and values from the bottom: what lies below is the rest, reversed.
  obtain ⟨items, free⟩ := s
  cases a with
  | push v => exact outcome_push (Nat.zero_le _) rfl (.push _ v)
  | clear => exact outcome_inPlace (Nat.zero_le _) rfl (capacity_clear _) (.clear _)
  | pop =>
      cases items with
      | nil => exact .short Nat.zero_lt_one
      | cons a items =>
          refine outcome_inPlace (Nat.le_add_left 1 _) rfl (pop?_values rfl).2 ?_
          simpa [values] using Does.pop items.reverse a
  | drop =>
      cases items with
      | nil => exact .short Nat.zero_lt_one
      | cons a items =>
          refine outcome_inPlace (Nat.le_add_left 1 _) rfl (pop?_values rfl).2 ?_
          simpa [values] using Does.drop items.reverse a
  | peek =>
      cases items with
      | nil => exact .short Nat.zero_lt_one
      | cons a items =>
          refine outcome_inPlace (Nat.le_add_left 1 _) rfl rfl ?_
          simpa [values] using Does.peek items.reverse a
  | edit change =>
      cases items with
      | nil => exact .short Nat.zero_lt_one
      | cons a items =>
          refine outcome_inPlace (Nat.le_add_left 1 _) rfl rfl ?_
          simpa [values] using Does.edit items.reverse a change
  | dup =>
      cases items with
      | nil => exact .short Nat.zero_lt_one
      | cons a items =>
          refine outcome_push (Nat.le_add_left 1 _) rfl ?_
          simpa [values] using Does.dup items.reverse a
  | swap =>
      rcases items with _ | ⟨b, _ | ⟨a, items⟩⟩
      · exact .short (by simp [size, needs])
      · exact .short (by simp [size, needs])
      · refine outcome_inPlace (Nat.le_add_left 2 _) rfl rfl ?_
        simpa [values] using Does.swap items.reverse a b
  | copyUnder =>
      rcases items with _ | ⟨b, _ | ⟨a, items⟩⟩
      · exact .short (by simp [size, needs])
      · exact .short (by simp [size, needs])
      · refine outcome_push (Nat.le_add_left 2 _) rfl ?_
        simpa [values] using Does.copyUnder items.reverse a b
  | rot =>
      rcases items with _ | ⟨c, _ | ⟨b, _ | ⟨a, items⟩⟩⟩
      · exact .short (by simp [size, needs])
      · exact .short (by simp [size, needs])
      · exact .short (by simp [size, needs])
      · refine outcome_inPlace (Nat.le_add_left 3 _) rfl rfl ?_
        simpa [values] using Does.rot items.reverse a b c

theorem run?_eq_none_iff {a : Action α} {s : Stack α} :
    a.run? s = none ↔ s.size < a.needs ∨ s.capacity < s.size + a.adds := by
  have houtcome := a.outcome s
  generalize a.run? s = result at houtcome
  cases houtcome with
  | short h => simp [h]
  | full h => simp [h]
  | done hneeds hroom _ _ =>
      refine ⟨fun h => absurd h (by simp), fun h => ?_⟩
      omega

theorem of_run?_eq_some {a : Action α} {s t : Stack α} {answer : Option α}
    (h : a.run? s = some (answer, t)) :
    t.capacity = s.capacity ∧ a.Does s.values t.values answer := by
  have houtcome := a.outcome s
  rw [h] at houtcome
  cases houtcome with
  | done _ _ hcapacity hdoes => exact ⟨hcapacity, hdoes⟩

end Action

end DualStack.Stack

/-! ### The stacks of a machine -/

namespace DualStack.Machine

/-- The two stacks of a machine. -/
inductive Side where
  | data
  | returns

namespace Side

/-- The stack on a side of a machine. -/
def stack (m : Machine) : Side → Stack Value
  | data => m.data
  | returns => m.returns

/-- A machine with another stack on one side. -/
def replace (m : Machine) (s : Stack Value) : Side → Machine
  | data => { m with data := s }
  | returns => { m with returns := s }

/-- Change the stack on a side, aborting if the change has no result. -/
def change (f : Stack Value → Option (Stack Value)) : Side → Effect Unit
  | data => Effect.onData f
  | returns => Effect.onReturns f

/-- Pop a value from the stack on a side. -/
def pop : Side → Effect Value
  | data => Effect.pop
  | returns => Effect.popReturn

/-- The top of the stack on a side. -/
def peek : Side → Effect Value
  | data => Effect.peek
  | returns => Effect.peekReturn

/-- Do something with a stack of a machine. -/
def act (side : Side) : Stack.Action Value → Effect (Option Value)
  | .push v => do side.change (Stack.push? v); return none
  | .pop => do return some (← side.pop)
  | .peek => do return some (← side.peek)
  | .edit f => do
    let v ← side.peek
    side.change (Stack.setTop? (f v))
    return some v
  | .dup => do side.change Stack.dup?; return none
  | .drop => do side.change Stack.drop?; return none
  | .swap => do side.change Stack.swap?; return none
  | .copyUnder => do side.change Stack.over?; return none
  | .rot => do side.change Stack.rot?; return none
  | .clear => do side.change (fun s => some s.clear); return none

/-- How an effect ends that finds this on a side: with an answer and another stack, or with an
abort. -/
def result (side : Side) (m : Machine) {α : Type} :
    Option (α × Stack Value) → EStateM.Result Abort Machine α
  | some (answer, s) => .ok answer (side.replace m s)
  | none => .error .stack m

variable {side : Side} {m : Machine}

theorem change_eq (f : Stack Value → Option (Stack Value)) :
    side.change f m = side.result m ((f (side.stack m)).map ((), ·)) := by
  cases side with
  | data =>
      simp only [change, Effect.onData, stack]
      cases f m.data <;> rfl
  | returns =>
      simp only [change, Effect.onReturns, stack]
      cases f m.returns <;> rfl

theorem pop_eq : side.pop m = side.result m (side.stack m).pop? := by
  cases side with
  | data =>
      simp only [pop, Effect.pop, stack]
      cases m.data.pop? <;> rfl
  | returns =>
      simp only [pop, Effect.popReturn, stack]
      cases m.returns.pop? <;> rfl

theorem peek_eq : side.peek m = side.result m ((side.stack m).peek?.map (·, side.stack m)) := by
  cases side with
  | data =>
      simp only [peek, Effect.peek, stack]
      cases m.data.peek? <;> rfl
  | returns =>
      simp only [peek, Effect.peekReturn, stack]
      cases m.returns.peek? <;> rfl

/-- An effect hands on what it has found. -/
theorem answer_eq {α : Type} {e : Effect α} {found : Option (α × Stack Value)}
    (h : e m = side.result m found) (answer : α → Option Value) :
    (do return answer (← e) : Effect (Option Value)) m =
      side.result m (found.map fun (a, s) => (answer a, s)) := by
  cases found with
  | none => exact Effect.bind_error h
  | some pair => exact Effect.bind_ok h

/-- **Done on a machine, an action has its result on the stack it is done with, or aborts and
leaves the machine as it was.** -/
theorem act_eq (a : Stack.Action Value) : side.act a m = side.result m (a.run? (side.stack m)) := by
  cases a with
  | push | dup | drop | swap | copyUnder | rot | clear =>
      refine (answer_eq (change_eq _) fun _ => none).trans ?_
      rw [Option.map_map]
      rfl
  | pop => exact answer_eq pop_eq some
  | peek =>
      refine (answer_eq peek_eq some).trans ?_
      rw [Option.map_map]
      rfl
  | edit f =>
      have hpeek : side.peek m = _ := peek_eq
      cases hv : (side.stack m).peek? with
      | none =>
          rw [hv] at hpeek
          rw [Stack.Action.run?, hv]
          exact Effect.bind_error hpeek
      | some v =>
          -- A look leaves the machine as it is, so the change finds the stack that was seen.
          have hsame : side.replace m (side.stack m) = m := by cases side <;> rfl
          rw [hv, Option.map_some, result, hsame] at hpeek
          rw [Stack.Action.run?, hv]
          refine (Effect.bind_ok hpeek).trans ((answer_eq (change_eq _) fun _ => some v).trans ?_)
          rw [Option.map_map]
          rfl

theorem capacity_after_act (a : Stack.Action Value) (other : Side) :
    (other.stack ((side.act a).after m)).capacity = (other.stack m).capacity := by
  unfold Effect.after
  rw [act_eq]
  cases hrun : a.run? (side.stack m) with
  | none => rfl
  | some found =>
      have hcapacity := (Stack.Action.of_run?_eq_some hrun).1
      cases side with
      | data =>
          cases other with
          | data => exact hcapacity
          | returns => rfl
      | returns =>
          cases other with
          | data => rfl
          | returns => exact hcapacity

end Side

/-- The machine after a history of actions on its stacks. -/
def afterActions (m : Machine) (history : List (Side × Stack.Action Value)) : Machine :=
  history.foldl (fun m (side, a) => (side.act a).after m) m

theorem capacity_afterActions (m : Machine) (history : List (Side × Stack.Action Value))
    (side : Side) : (side.stack (m.afterActions history)).capacity = (side.stack m).capacity := by
  induction history generalizing m with
  | nil => rfl
  | cons done history ih =>
      exact (ih ((done.1.act done.2).after m)).trans (Side.capacity_after_act done.2 side)

/--
**Stack operations are exact and atomic.**

Take a machine with stacks of any size, whatever was done with them since they were empty,
and do something with one of them.  It fails exactly if the stack has fewer values than are
needed or if what is added exceeds the size.  If it fails, that is a stack error, and the
machine is as it was.  If it succeeds, nothing but that stack is changed, its values become
what the stack comment tells, and unless it was cleared, those below the values that were
needed are the same as before.
-/
theorem operations_exact_and_atomic (stackSize : Nat) (sink : Sink) (world : World)
    (history : List (Side × Stack.Action Value)) (side : Side) (a : Stack.Action Value) :
    let m := (fresh stackSize sink world).afterActions history
    let values := (side.stack m).values
    (side.stack m).capacity = stackSize ∧ values.length ≤ stackSize ∧
    ((∃ reason n, side.act a m = .error reason n) ↔
      values.length < a.needs ∨ stackSize < values.length + a.adds) ∧
    (∀ reason n, side.act a m = .error reason n → reason = .stack ∧ n = m) ∧
    ∀ answer n, side.act a m = .ok answer n →
      ∃ s, n = side.replace m s ∧ s.capacity = stackSize ∧ a.Does values s.values answer ∧
        (a ≠ .clear → s.values.take (values.length - a.needs) =
          values.take (values.length - a.needs)) := by
  intro m values
  have hcapacity : (side.stack m).capacity = stackSize := by
    rw [capacity_afterActions]
    cases side <;> exact Stack.capacity_empty stackSize
  have hsize : values.length = (side.stack m).size := (side.stack m).length_values
  have hfails := Stack.Action.run?_eq_none_iff (a := a) (s := side.stack m)
  rw [hcapacity, ← hsize] at hfails
  refine ⟨hcapacity, ?_, ?_⟩
  · rw [hsize, ← hcapacity]
    exact (side.stack m).size_le_capacity
  rw [Side.act_eq, ← hfails]
  cases hrun : a.run? (side.stack m) with
  | none => simp [Side.result]
  | some found =>
      obtain ⟨answer, s⟩ := found
      obtain ⟨hkept, hdoes⟩ := Stack.Action.of_run?_eq_some hrun
      refine ⟨by simp [Side.result], by simp [Side.result], ?_⟩
      intro answer' n h
      cases h
      exact ⟨s, rfl, hkept.trans hcapacity, hdoes, hdoes.below⟩

/-- Three values fill a stack: the one under the top cannot be copied, and nothing changes; the
top two can be exchanged, and the third stays where it is. -/
theorem operations_exact_and_atomic_full :
    let history := [(.data, .push (.byte 1)), (.returns, .push (.byte 0)), (.data, .push (.byte 2)),
      (.data, .push (.byte 3)), (.data, .copyUnder), (.data, .rot)]
    let m := (fresh 3 {} .empty).afterActions history
    m.data.values = [.byte 2, .byte 3, .byte 1] ∧ Side.data.act .copyUnder m = .error .stack m ∧
      ∃ n s, Side.data.act .swap m = .ok none n ∧ n = { m with data := s } ∧
        Stack.Action.swap.Does m.data.values s.values none ∧ s.values.take 1 = [.byte 2] := by
  intro history m
  obtain ⟨-, -, hfails, hkept, -⟩ :=
    operations_exact_and_atomic 3 {} .empty history .data .copyUnder
  obtain ⟨-, -, -, -, hswap⟩ := operations_exact_and_atomic 3 {} .empty history .data .swap
  obtain ⟨reason, n, hover⟩ := hfails.mpr (.inr (by decide))
  obtain ⟨rfl, rfl⟩ := hkept reason n hover
  obtain ⟨s, hn, -, hdoes, hbelow⟩ := hswap none _ rfl
  exact ⟨rfl, hover, _, s, rfl, hn, hdoes, hbelow (by simp)⟩

end DualStack.Machine
