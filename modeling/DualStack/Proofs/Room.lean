/-
More room never changes what a working program does.

Two machines run side by side.  The second one has the data stack of the first
one on top of some values of its own, the same return stack, the same words,
variables, output and world, at least as much room on both stacks and no more
calls in progress: `Machine.Covers`.  A program that succeeds on the first machine
succeeds on the second with the same answers, and the machines it leaves are
related as before (`Eval.simulates`).

The capacity is asked for in three places only, a push on either stack and the
bound on nested calls, and each passes on the second machine if it passes on the
first.  One place looks below the values a program owns: a conditional takes an
empty stack for false.  It does the same on both machines if the second has no
values of its own, which is the case of two sessions that differ in their stack
size alone; how a condition is taken is therefore a parameter on both sides.
-/
import DualStack.Proofs.Effects
import DualStack.Session
import Mathlib.Data.List.Forall2

namespace DualStack

/-- The second stack holds the values of the first on top of `below`, and has at least as
much room. -/
structure Stack.Covers {α : Type} (below : List α) (s t : Stack α) : Prop where
  items : t.items = s.items ++ below
  free : s.free ≤ t.free

namespace Stack

variable {α : Type} {below : List α} {s t s' : Stack α} {v : α}

theorem Covers.push? (h : Covers below s t) (hs : s.push? v = some s') :
    ∃ t', t.push? v = some t' ∧ Covers below s' t' := by
  obtain ⟨items, free⟩ := s
  obtain ⟨titems, tfree⟩ := t
  obtain ⟨hitems, hfree⟩ := h
  dsimp only at hitems hfree
  cases free with
  | zero => simp [Stack.push?] at hs
  | succ free =>
      cases tfree with
      | zero => omega
      | succ tfree =>
          simp only [Stack.push?, Option.some.injEq] at hs
          subst hs
          exact ⟨_, rfl, by rw [hitems]; rfl, by dsimp only; omega⟩

theorem Covers.pop? (h : Covers below s t) (hs : s.pop? = some (v, s')) :
    ∃ t', t.pop? = some (v, t') ∧ Covers below s' t' := by
  obtain ⟨items, free⟩ := s
  obtain ⟨titems, tfree⟩ := t
  obtain ⟨hitems, hfree⟩ := h
  dsimp only at hitems hfree
  cases items with
  | nil => simp [Stack.pop?] at hs
  | cons w items =>
      simp only [Stack.pop?, Option.some.injEq, Prod.mk.injEq] at hs
      obtain ⟨rfl, rfl⟩ := hs
      subst hitems
      exact ⟨_, rfl, rfl, Nat.succ_le_succ hfree⟩

theorem Covers.peek? (h : Covers below s t) (hs : s.peek? = some v) : t.peek? = some v := by
  unfold Stack.peek? at hs ⊢
  rw [h.items, List.head?_append, hs]
  rfl

/-- An operation that has a result looks only at values the first stack holds. -/
theorem Operation.covers {change : Stack α → Option (Stack α)} (hop : Operation change)
    (h : Covers below s t) (hs : change s = some s') :
    ∃ t', change t = some t' ∧ Covers below s' t' := by
  cases hop with
  | push v => exact h.push? hs
  | drop =>
      obtain ⟨⟨v, s''⟩, hpop, rfl⟩ := Option.map_eq_some_iff.mp hs
      obtain ⟨t', ht, hcovers⟩ := h.pop? hpop
      exact ⟨t', by rw [drop?, ht]; rfl, hcovers⟩
  | setTop v =>
      unfold setTop? at hs ⊢
      split at hs
      · exact absurd hs (by simp)
      · rename_i w items hitems
        cases hs
        rw [h.items, hitems]
        exact ⟨_, rfl, rfl, h.free⟩
  | dup =>
      unfold dup? at hs ⊢
      split at hs
      · exact absurd hs (by simp)
      · rename_i w items hitems
        rw [h.items, hitems]
        exact h.push? hs
  | swap =>
      unfold swap? at hs ⊢
      split at hs
      · rename_i b a items hitems
        cases hs
        rw [h.items, hitems]
        exact ⟨_, rfl, rfl, h.free⟩
      · exact absurd hs (by simp)
  | copyUnder =>
      unfold over? at hs ⊢
      split at hs
      · rename_i b a items hitems
        rw [h.items, hitems]
        exact h.push? hs
      · exact absurd hs (by simp)
  | rot =>
      unfold rot? at hs ⊢
      split at hs
      · rename_i c b a items hitems
        cases hs
        rw [h.items, hitems]
        exact ⟨_, rfl, rfl, h.free⟩
      · exact absurd hs (by simp)

/-- The second stack can hold at least as much. -/
theorem Covers.capacity (h : Covers below s t) : s.capacity ≤ t.capacity := by
  have hitems := congrArg List.length h.items
  have hfree := h.free
  rw [List.length_append] at hitems
  unfold Stack.capacity size
  omega

end Stack

/-- The second machine has all the first one has, on top of `below`, and at least as much
room. -/
structure Machine.Covers (below : List Value) (m n : Machine) : Prop where
  data : Stack.Covers below m.data n.data
  returns : Stack.Covers [] m.returns n.returns
  words : n.words = m.words
  slots : n.slots = m.slots
  sink : n.sink = m.sink
  world : n.world = m.world
  depth : n.depth ≤ m.depth

/-- A name stands for the same on both machines. -/
theorem Machine.Covers.word? {below : List Value} {m n : Machine} (h : Covers below m n)
    (name : String) : n.word? name = m.word? name := by
  unfold Machine.word?
  rw [h.words]

/-- What succeeds on a machine succeeds with the same answer on one that covers it. -/
def Effect.Simulates {α : Type} (below : List Value) (e e' : Effect α) : Prop :=
  ∀ ⦃m n m' : Machine⦄ ⦃a : α⦄, Machine.Covers below m n → e m = .ok a m' →
    ∃ n', e' n = .ok a n' ∧ Machine.Covers below m' n'

namespace Effect.Simulates

variable {α β : Type} {below : List Value}

theorem bind {e e' : Effect α} {f f' : α → Effect β} (he : Simulates below e e')
    (hf : ∀ a, Simulates below (f a) (f' a)) : Simulates below (e >>= f) (e' >>= f') := by
  intro m n m' b h hok
  obtain ⟨a, mid, hfirst, hrest⟩ := of_bind_ok hok
  obtain ⟨nmid, hfirst', hmid⟩ := he h hfirst
  obtain ⟨n', hrest', hend⟩ := hf a hmid hrest
  exact ⟨n', by rw [bind_ok hfirst', hrest'], hend⟩

theorem pure (a : α) : Simulates below (Pure.pure a) (Pure.pure a) := by
  intro m n m' b h hok
  cases hok
  exact ⟨n, rfl, h⟩

/-- A change that cannot fail and keeps the machines related. -/
theorem update {change : Machine → Machine}
    (hchange : ∀ {m n}, Machine.Covers below m n → Machine.Covers below (change m) (change n)) :
    Simulates below (update change) (update change) := by
  intro m n m' b h hok
  cases hok
  exact ⟨_, rfl, hchange h⟩

theorem onData {change : Stack Value → Option (Stack Value)} (hop : Stack.Operation change) :
    Simulates below (onData change) (onData change) := by
  intro m n m' b h hok
  unfold Effect.onData at hok ⊢
  cases hs : change m.data with
  | none =>
      rw [hs] at hok
      exact absurd hok (by simp)
  | some s =>
      rw [hs] at hok
      cases hok
      obtain ⟨t, ht, hcovers⟩ := hop.covers h.data hs
      rw [ht]
      exact ⟨_, rfl, { h with data := hcovers }⟩

theorem push (v : Value) : Simulates below (push v) (push v) :=
  onData (.push v)

theorem pop : Simulates below pop pop := by
  intro m n m' v h hok
  unfold Effect.pop at hok ⊢
  cases hs : m.data.pop? with
  | none =>
      rw [hs] at hok
      exact absurd hok (by simp)
  | some popped =>
      obtain ⟨w, s⟩ := popped
      rw [hs] at hok
      cases hok
      obtain ⟨t, ht, hcovers⟩ := h.data.pop? hs
      rw [ht]
      exact ⟨_, rfl, { h with data := hcovers }⟩

theorem peek : Simulates below peek peek := by
  intro m n m' v h hok
  unfold Effect.peek at hok ⊢
  cases hs : m.data.peek? with
  | none =>
      rw [hs] at hok
      exact absurd hok (by simp)
  | some w =>
      rw [hs] at hok
      cases hok
      rw [h.data.peek? hs]
      exact ⟨n, rfl, h⟩

theorem onReturns {change : Stack Value → Option (Stack Value)} (hop : Stack.Operation change) :
    Simulates below (onReturns change) (onReturns change) := by
  intro m n m' b h hok
  unfold Effect.onReturns at hok ⊢
  cases hs : change m.returns with
  | none =>
      rw [hs] at hok
      exact absurd hok (by simp)
  | some s =>
      rw [hs] at hok
      cases hok
      obtain ⟨t, ht, hcovers⟩ := hop.covers h.returns hs
      rw [ht]
      exact ⟨_, rfl, { h with returns := hcovers }⟩

theorem popReturn : Simulates below popReturn popReturn := by
  intro m n m' v h hok
  unfold Effect.popReturn at hok ⊢
  cases hs : m.returns.pop? with
  | none =>
      rw [hs] at hok
      exact absurd hok (by simp)
  | some popped =>
      obtain ⟨w, s⟩ := popped
      rw [hs] at hok
      cases hok
      obtain ⟨t, ht, hcovers⟩ := h.returns.pop? hs
      rw [ht]
      exact ⟨_, rfl, { h with returns := hcovers }⟩

theorem peekReturn : Simulates below peekReturn peekReturn := by
  intro m n m' v h hok
  unfold Effect.peekReturn at hok ⊢
  cases hs : m.returns.peek? with
  | none =>
      rw [hs] at hok
      exact absurd hok (by simp)
  | some w =>
      rw [hs] at hok
      cases hok
      rw [h.returns.peek? hs]
      exact ⟨n, rfl, h⟩

theorem print (bytes : List UInt8) : Simulates below (print bytes) (print bytes) := by
  intro m n m' b h hok
  unfold Effect.print at hok ⊢
  rw [h.sink]
  cases hs : Sink.write bytes m.sink with
  | error fault s =>
      rw [hs] at hok
      exact absurd hok (by simp)
  | ok _ s =>
      rw [hs] at hok
      cases hok
      exact ⟨_, rfl, { h with sink := rfl }⟩

/-- Both machines see the same world, so an act on it goes the same way. -/
theorem attempt (act : World.Act α) : Simulates below (attempt act) (attempt act) := by
  intro m n m' outcome h hok
  unfold Effect.attempt at hok ⊢
  rw [h.world]
  cases hs : act m.world with
  | ok a w =>
      rw [hs] at hok
      cases hok
      exact ⟨_, rfl, { h with world := rfl }⟩
  | error fault w =>
      rw [hs] at hok
      cases hok
      exact ⟨_, rfl, { h with world := rfl }⟩

/-- Looking at the machine, where what is done next agrees on related machines. -/
theorem lookup {f f' : Machine → Effect α}
    (hf : ∀ m n, Machine.Covers below m n → Simulates below (f m) (f' n)) :
    Simulates below (do f (← get)) (do f' (← get)) := by
  intro m n m' a h hok
  exact hf m n h h hok

/-- What is made of base effects asks for room only to push. -/
theorem basic {e : Effect α} (he : Basic e) : Simulates below e e := by
  induction he with
  | pure a => exact .pure a
  | bind _ _ ihe ihf => exact .bind ihe ihf
  | onData hop => exact .onData hop
  | pop => exact .pop
  | peek => exact .peek
  | peekReturn => exact .peekReturn
  | store name v =>
      refine .update fun {m n} h => { h with slots := ?_ }
      show n.slots.insert name v = m.slots.insert name v
      rw [h.slots]
  | load name _ ih =>
      refine .lookup fun m n h => ?_
      have hload : n.load name = m.load name := by
        unfold Machine.load
        rw [h.slots]
      rw [hload]
      exact ih (m.load name)
  | print bytes => exact .print bytes
  | attempt act => exact .attempt act

theorem define (name : String) (body : List Node) :
    Simulates below (Effect.update (·.define name body)) (Effect.update (·.define name body)) := by
  refine .update fun {m n} h => { h with words := ?_ }
  show n.words.insert name body = m.words.insert name body
  rw [h.words]

theorem pushReturn (v : Value) :
    Simulates below (Effect.pushReturn v) (Effect.pushReturn v) :=
  onReturns (.push v)

theorem enterCall : Simulates below Eval.enterCall Eval.enterCall := by
  intro m n m' a h hok
  unfold Eval.enterCall at hok
  by_cases hdeep : m.callLimit ≤ m.depth
  · rw [if_pos hdeep] at hok
    exact absurd hok (by simp)
  · rw [if_neg hdeep] at hok
    cases hok
    have hroom := h.returns.capacity
    have hdepth := h.depth
    have hfits : ¬ n.callLimit ≤ n.depth := by
      unfold Machine.callLimit at hdeep ⊢
      omega
    exact ⟨_, if_neg hfits, { h with depth := Nat.succ_le_succ hdepth }⟩

theorem leaveCall {e e' : Effect Unit} (he : Simulates below e e') :
    Simulates below (Eval.leaveCall e) (Eval.leaveCall e') := by
  intro m n m' a h hok
  unfold Eval.leaveCall at hok
  split at hok
  · rename_i k hk
    cases hok
    obtain ⟨n', hok', hcovers⟩ := he h hk
    have hdepth : n'.depth - 1 ≤ k.depth - 1 := Nat.sub_le_sub_right hcovers.depth 1
    refine ⟨{ n' with depth := n'.depth - 1 }, ?_, { hcovers with depth := hdepth }⟩
    rw [Eval.leaveCall, hok']
  · exact absurd hok (by simp)

end Effect.Simulates

namespace Eval

open Effect

variable {below : List Value}

theorem enterLoop_simulates : Simulates below enterLoop enterLoop :=
  .bind (.onData .swap) fun _ => .bind .pop fun limit => .bind .pop fun start =>
    .bind (.pushReturn limit) fun _ => .pushReturn start

theorem nextIndex_simulates : Simulates below nextIndex nextIndex := by
  refine .bind .popReturn fun index => .bind .peekReturn fun limit => .basic ?_
  cases index with
  | number i =>
      cases limit with
      | number l => exact .pure _
      | _ => exact .pure _
  | _ => exact .pure _

/-- **If one way to take a condition simulates another, so does all evaluation.** -/
theorem simulates {test test' : Effect Bool} (htest : Simulates below test test') (fuel : Nat) :
    (∀ n, Simulates below (node test fuel n) (node test' fuel n)) ∧
    (∀ ns, Simulates below (block test fuel ns) (block test' fuel ns)) ∧
    (∀ name, Simulates below (call test fuel name) (call test' fuel name)) ∧
    (∀ body, Simulates below (iterate test fuel body) (iterate test' fuel body)) := by
  induction fuel with
  | zero =>
      have hstuck : Simulates below (throw .outOfFuel : Effect Unit) (throw .outOfFuel) := by
        intro m n m' a h hok
        have herror : (throw .outOfFuel : Effect Unit) m = .error .outOfFuel m := rfl
        exact absurd (herror.symm.trans hok) (by simp)
      exact ⟨fun _ => hstuck, fun _ => hstuck, fun _ => hstuck, fun _ => hstuck⟩
  | succ fuel ih =>
      obtain ⟨hnode, hblock, hcall, hloop⟩ := ih
      refine ⟨fun n => ?_, fun ns => ?_, fun name => ?_, fun body => ?_⟩
      · cases n with
        | word name => exact hcall name
        | reference | number | text | collection => exact .push _
        | declaration name => exact .bind (.define _ _) fun _ => .push _
        | definition name body => exact .define name body
        | conditional thenBody elseBody =>
            refine .bind htest fun taken => ?_
            cases taken with
            | true => exact hblock thenBody
            | false => exact hblock elseBody
        | loop body => exact .bind enterLoop_simulates fun _ => hloop body
      · cases ns with
        | nil => exact .pure ()
        | cons n ns => exact .bind (hnode n) fun _ => hblock ns
      · refine .lookup fun m n h => ?_
        rw [h.word?]
        rcases m.word? name with _ | ⟨body⟩ | ⟨p⟩
        · exact .pure ()
        · exact .bind .enterCall fun _ => (hblock body).leaveCall
        · exact .basic p.run_basic
      · refine .bind nextIndex_simulates fun next => ?_
        cases next with
        | none => exact .onReturns .drop
        | some i =>
            exact .bind (.pushReturn _) fun _ => .bind (hblock body) fun _ =>
              .bind (.onReturns .drop) fun _ => .bind (.pushReturn _) fun _ => hloop body

/-- With nothing below, a stack is empty on both sides or on none, and the conditional that
forgives an empty stack does so on both. -/
theorem lenient_simulates : Simulates [] lenient lenient := by
  intro m n m' taken h hok
  unfold lenient at hok ⊢
  cases hs : m.data.pop? with
  | some popped =>
      obtain ⟨v, s⟩ := popped
      rw [hs] at hok
      cases hok
      obtain ⟨t, ht, hcovers⟩ := h.data.pop? hs
      rw [ht]
      exact ⟨_, rfl, { h with data := hcovers }⟩
  | none =>
      rw [hs] at hok
      cases hok
      have hitems : m.data.items = [] := by
        unfold Stack.pop? at hs
        split at hs
        · assumption
        · exact absurd hs (by simp)
      have hempty : n.data.pop? = none := by
        have hbelow := h.data.items
        rw [hitems] at hbelow
        unfold Stack.pop?
        rw [hbelow]
        rfl
      rw [hempty]
      exact ⟨n, rfl, h⟩

end Eval

/-! ### From one block to a session -/

namespace Session

theorem flush_simulates {m n m' : Machine} (h : Machine.Covers [] m n)
    (hflush : flush m = .ok () m') : ∃ n', flush n = .ok () n' ∧ Machine.Covers [] m' n' := by
  unfold flush at hflush ⊢
  rw [h.sink]
  cases hs : Sink.flush m.sink with
  | error fault s =>
      rw [hs] at hflush
      exact absurd hflush (by simp)
  | ok _ s =>
      rw [hs] at hflush
      cases hflush
      exact ⟨_, rfl, { h with sink := rfl }⟩

/-- A run succeeds if and only if its source parses, its block succeeds and the flush does. -/
theorem run_eq_ok_iff {fuel : Nat} {source : String} {m m' : Machine} :
    run fuel source m = .ok () m' ↔
      ∃ nodes k, parse source = .ok nodes ∧ Eval.block Eval.lenient fuel nodes m = .ok () k ∧
        flush k = .ok () m' := by
  unfold run Machine.interpret
  constructor
  · intro hrun
    cases hparse : parse source with
    | error error =>
        rw [hparse] at hrun
        exact absurd hrun (by simp)
    | ok nodes =>
        rw [hparse] at hrun
        dsimp only at hrun
        cases hblock : Eval.block Eval.lenient fuel nodes m with
        | error reason k =>
            rw [hblock] at hrun
            dsimp only at hrun
            split at hrun <;> exact absurd hrun (by simp)
        | ok _ k =>
            rw [hblock] at hrun
            dsimp only at hrun
            refine ⟨nodes, k, rfl, hblock, ?_⟩
            split at hrun
            · rename_i hflush
              cases hrun
              exact hflush
            · exact absurd hrun (by simp)
  · rintro ⟨nodes, k, hparse, hblock, hflush⟩
    rw [hparse]
    dsimp only
    rw [hblock]
    dsimp only
    rw [hflush]

theorem run_simulates {fuel : Nat} {source : String} {m n m' : Machine}
    (h : Machine.Covers [] m n) (hrun : run fuel source m = .ok () m') :
    ∃ n', run fuel source n = .ok () n' ∧ Machine.Covers [] m' n' := by
  obtain ⟨nodes, k, hparse, hblock, hflush⟩ := run_eq_ok_iff.mp hrun
  obtain ⟨k', hblock', hk⟩ := (Eval.simulates Eval.lenient_simulates fuel).2.1 nodes h hblock
  obtain ⟨n', hflush', hn⟩ := flush_simulates hk hflush
  exact ⟨n', run_eq_ok_iff.mpr ⟨nodes, k', hparse, hblock', hflush'⟩, hn⟩

/-- Every source of a session runs to its end, each with enough fuel, and the machines are those
the runs leave one after the other. -/
inductive Succeeds : Machine → List String → List Machine → Prop
  | nil (m : Machine) : Succeeds m [] []
  | cons {m m' : Machine} {source : String} {sources : List String} {ms : List Machine}
      (fuel : Nat) (hrun : run fuel source m = .ok () m') (hrest : Succeeds m' sources ms) :
      Succeeds m (source :: sources) (m' :: ms)

/-- The machines the runs of a session leave, if all of them succeed with this fuel. -/
def machines? (fuel : Nat) : List String → Machine → Option (List Machine)
  | [], _ => some []
  | source :: sources, m =>
    match run fuel source m with
    | .ok () m' => (machines? fuel sources m').map (m' :: ·)
    | .error _ _ => none

theorem Succeeds.of_machines? {fuel : Nat} {m : Machine} {sources : List String}
    {ms : List Machine} (h : machines? fuel sources m = some ms) : Succeeds m sources ms := by
  induction sources generalizing m ms with
  | nil =>
      cases h
      exact .nil m
  | cons source sources ih =>
      rw [machines?] at h
      split at h
      · rename_i m' hrun
        obtain ⟨ms', hrest, rfl⟩ := Option.map_eq_some_iff.mp h
        exact .cons fuel hrun (ih hrest)
      · exact absurd h (by simp)

theorem Succeeds.simulates {m n : Machine} {sources : List String} {ms : List Machine}
    (hsession : Succeeds m sources ms) (h : Machine.Covers [] m n) :
    ∃ ns, Succeeds n sources ns ∧ List.Forall₂ (Machine.Covers []) ms ns := by
  induction hsession generalizing n with
  | nil m => exact ⟨[], .nil n, .nil⟩
  | cons fuel hrun _ ih =>
      obtain ⟨n', hrun', hcovers⟩ := run_simulates h hrun
      obtain ⟨ns, hrest', hall⟩ := ih hcovers
      exact ⟨n' :: ns, .cons fuel hrun' hrest', .cons hcovers hall⟩

end Session

/-- All that can be observed of a machine, which is everything but the room it has: the stacks,
the words, the variables, what was printed and what was done to the world. -/
structure Machine.SameState (m n : Machine) : Prop where
  data : n.data.values = m.data.values
  returns : n.returns.values = m.returns.values
  words : n.words = m.words
  slots : n.slots = m.slots
  sink : n.sink = m.sink
  world : n.world = m.world

theorem Machine.Covers.sameState {m n : Machine} (h : Covers [] m n) : SameState m n where
  data := by rw [Stack.values, h.data.items, List.append_nil, Stack.values]
  returns := by rw [Stack.values, h.returns.items, List.append_nil, Stack.values]
  words := h.words
  slots := h.slots
  sink := h.sink
  world := h.world

theorem Machine.covers_fresh {stackSize larger : Nat} (h : stackSize ≤ larger) (sink : Sink)
    (world : World) : Covers [] (fresh stackSize sink world) (fresh larger sink world) where
  data := ⟨rfl, h⟩
  returns := ⟨rfl, h⟩
  words := rfl
  slots := rfl
  sink := rfl
  world := rfl
  depth := Nat.le_refl 0

/--
**A larger stack never changes what a working session does.**

If every source of a session runs to its end on a fresh machine, then every source
does on a fresh machine with larger stacks, and after each of them the two machines
agree on everything but their room.
-/
theorem Session.larger_stack_same_session {stackSize larger : Nat} (hle : stackSize ≤ larger)
    (sink : Sink) (world : World) {sources : List String} {ms : List Machine}
    (hsession : Succeeds (.fresh stackSize sink world) sources ms) :
    ∃ ns, Succeeds (.fresh larger sink world) sources ns ∧
      List.Forall₂ Machine.SameState ms ns := by
  obtain ⟨ns, hsession', hall⟩ := hsession.simulates (Machine.covers_fresh hle sink world)
  exact ⟨ns, hsession', hall.imp fun _ _ h => h.sameState⟩

/-- A word that prints its argument, called in a loop and in a conditional without a value, and a
byte that is sent to a peer and comes back, with room for four values and for forty. -/
theorem Session.larger_stack_same_session_calls :
    let sources := [": show . ; 3 0 for I show end", "if 1 else 2 show then", "7 dup +", "drop",
      "\"tcp\" \"127.0.0.1:80\" dial drop \"x\" send drop drop", "1 recv drop . 0 # . drop close ."]
    let echo : Network := { connections := [fun _ => .ok { reads := [.bytes [0x78]] }] }
    let world : World := { pipes := [], files := .empty, network := echo }
    ∃ ms ns, Succeeds (.fresh 4 {} world) sources ms ∧
      Succeeds (.fresh 40 {} world) sources ns ∧ List.Forall₂ Machine.SameState ms ns := by
  intro sources echo world
  have hdone : (machines? 100 sources (.fresh 4 {} world)).isSome = true := by decide +kernel
  obtain ⟨ms, hms⟩ := Option.isSome_iff_exists.mp hdone
  have hsession := Succeeds.of_machines? hms
  have hle : 4 ≤ 40 := by decide
  obtain ⟨ns, hsession', hall⟩ := larger_stack_same_session hle {} world hsession
  exact ⟨ms, ns, hsession, hsession', hall⟩

end DualStack
