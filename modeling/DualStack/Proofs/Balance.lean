/-
Evaluation balances the return stack and the call depth.

A loop puts two values on the return stack, trades the upper one for the next
index in every round, and takes both away at its end.  Nodes, calls and
conditionals inside it use the same stack, so one path that forgot a value would
hand an outer loop a wrong limit.  `Eval.carries` rules that out for the four
functions of the evaluator at once, by induction on the fuel.

The induction needs a statement about a loop that is already running: it ends
with the two topmost values gone.  So what an effect does to the return stack is
a relation, a parameter of `Effect.Carries`, and `Stack.under` is the one
operation these relations are made of.  Equality is the relation of everything
that is not part of a loop.

An abort leaves the return stack as it happened to be; only `interpret` clears
it.  The depth goes back in every outcome, so it is part of `Carries` whatever
the relation.
-/
import DualStack.Proofs.Moves

namespace DualStack

/-- The stack without its top value. -/
def Stack.under {α : Type} (s : Stack α) : Stack α :=
  match s.items with
  | [] => s
  | _ :: items => ⟨items, s.free + 1⟩

namespace Stack

variable {α : Type} {s t : Stack α} {v : α}

theorem under_of_push? (h : s.push? v = some t) : t.under = s := by
  obtain ⟨items, free⟩ := s
  cases free with
  | zero => simp [push?] at h
  | succ free =>
      simp only [push?, Option.some.injEq] at h
      subst h
      rfl

theorem eq_under_of_pop? (h : s.pop? = some (v, t)) : t = s.under := by
  obtain ⟨items, free⟩ := s
  cases items with
  | nil => simp [pop?] at h
  | cons w items =>
      simp only [pop?, Option.some.injEq, Prod.mk.injEq] at h
      exact h.2.symm

theorem eq_under_of_drop? (h : s.drop? = some t) : t = s.under := by
  obtain ⟨⟨v, t'⟩, hpop, rfl⟩ := Option.map_eq_some_iff.mp h
  exact eq_under_of_pop? hpop

end Stack

/-- A success takes the return stack along `f`, and every outcome keeps the call depth. -/
structure Effect.Carries {α : Type} (f : Stack Value → Stack Value → Prop) (e : Effect α) :
    Prop where
  returns : ∀ {m n : Machine} {a : α}, e m = .ok a n → f m.returns n.returns
  depth : ∀ m : Machine, (e.after m).depth = m.depth

namespace Effect.Carries

variable {α β : Type} {f g h : Stack Value → Stack Value → Prop}

theorem bind {e : Effect α} {k : α → Effect β} (he : Carries f e) (hk : ∀ a, Carries g (k a))
    (hfg : ∀ {s t u}, f s t → g t u → h s u) : Carries h (e >>= k) where
  returns := by
    intro m n b hok
    obtain ⟨a, mid, hfirst, hrest⟩ := of_bind_ok hok
    exact hfg (he.returns hfirst) ((hk a).returns hrest)
  depth :=
    Within.bind (R := fun m n => n.depth = m.depth) (fun hab hbc => hbc.trans hab) he.depth
      fun a => (hk a).depth

/-- Sequencing on the level of a loop body, where the return stack stays as it is. -/
theorem andThen {e : Effect α} {k : α → Effect β} (he : Carries Eq e) (hk : ∀ a, Carries f (k a)) :
    Carries f (e >>= k) :=
  he.bind hk fun hst htu => hst ▸ htu

/-- What is made of base effects does not touch the loops or the calls. -/
theorem basic {e : Effect α} (he : Basic e) : Carries Eq e where
  returns := by
    intro m n a hok
    have hmoves := he.moves m
    rw [after_ok hok] at hmoves
    exact hmoves.leaves.1.symm
  depth := fun m => (he.moves m).leaves.2.2

theorem onReturns {change : Stack Value → Option (Stack Value)}
    (hchange : ∀ {s t}, change s = some t → f s t) : Carries f (Effect.onReturns change) where
  returns := by
    intro m n a hok
    unfold Effect.onReturns at hok
    cases hs : change m.returns with
    | none =>
        rw [hs] at hok
        exact absurd hok (by simp)
    | some s =>
        rw [hs] at hok
        simp only [EStateM.Result.ok.injEq] at hok
        obtain ⟨-, rfl⟩ := hok
        exact hchange hs
  depth := by
    intro m
    unfold after Effect.onReturns
    cases change m.returns with
    | none => rfl
    | some s => rfl

theorem pushReturn (v : Value) : Carries (fun s t => t.under = s) (Effect.pushReturn v) :=
  onReturns Stack.under_of_push?

theorem dropReturn : Carries (fun s t => t = s.under) (Effect.onReturns Stack.drop?) :=
  onReturns Stack.eq_under_of_drop?

theorem popReturn : Carries (fun s t => t = s.under) Effect.popReturn where
  returns := by
    intro m n v hok
    unfold Effect.popReturn at hok
    cases hs : m.returns.pop? with
    | none =>
        rw [hs] at hok
        exact absurd hok (by simp)
    | some popped =>
        obtain ⟨w, s⟩ := popped
        rw [hs] at hok
        simp only [EStateM.Result.ok.injEq] at hok
        obtain ⟨-, rfl⟩ := hok
        exact Stack.eq_under_of_pop? hs
  depth := by
    intro m
    unfold after Effect.popReturn
    cases m.returns.pop? with
    | none => rfl
    | some popped => rfl

/-- Looking at the machine changes nothing. -/
theorem lookup {e : Machine → Effect α} (he : ∀ m, Carries f (e m)) :
    Carries f (do e (← get)) where
  returns := fun {m _ _} hok => (he m).returns hok
  depth := fun m => (he m).depth m

theorem define (name : String) (body : List Node) :
    Carries Eq (Effect.update (·.define name body)) where
  returns := by
    intro m n a hok
    simp only [Effect.update, EStateM.Result.ok.injEq] at hok
    obtain ⟨-, rfl⟩ := hok
    rfl
  depth := fun _ => rfl

/-- A call counts itself in, runs its body one level deeper, and counts itself out. -/
theorem call {body : Effect Unit} (hbody : Carries Eq body) :
    Carries Eq (do Eval.enterCall; Eval.leaveCall body) where
  returns := by
    intro m n a hok
    obtain ⟨_, mid, henter, hleave⟩ := of_bind_ok hok
    unfold Eval.enterCall at henter
    split at henter
    · exact absurd henter (by simp)
    · simp only [EStateM.Result.ok.injEq] at henter
      obtain ⟨-, rfl⟩ := henter
      unfold Eval.leaveCall at hleave
      split at hleave
      · rename_i k hk
        simp only [EStateM.Result.ok.injEq] at hleave
        obtain ⟨-, rfl⟩ := hleave
        have hinside : _ = k.returns := hbody.returns hk
        exact hinside
      · exact absurd hleave (by simp)
  depth := by
    intro m
    by_cases hdeep : m.callLimit ≤ m.depth
    · have henter : Eval.enterCall m = .error .stack m := if_pos hdeep
      rw [after, bind_error henter]
    · have henter : Eval.enterCall m = .ok () { m with depth := m.depth + 1 } := if_neg hdeep
      have hinside := hbody.depth { m with depth := m.depth + 1 }
      rw [after, bind_ok henter]
      unfold Eval.leaveCall
      unfold after at hinside
      -- The body ends at the depth it was given, which is one more than the caller's.
      cases hrun : body { m with depth := m.depth + 1 } with
      | ok _ n =>
          rw [hrun] at hinside
          show n.depth - 1 = m.depth
          rw [hinside, Nat.add_sub_cancel]
      | error reason n =>
          rw [hrun] at hinside
          show n.depth - 1 = m.depth
          rw [hinside, Nat.add_sub_cancel]

end Effect.Carries

namespace Eval

open Effect

theorem lenient_carries : Carries Eq lenient where
  returns := by
    intro m n taken hok
    unfold lenient at hok
    split at hok
    all_goals
      simp only [EStateM.Result.ok.injEq] at hok
      obtain ⟨-, rfl⟩ := hok
      rfl
  depth := by
    intro m
    unfold after lenient
    cases m.data.pop? <;> rfl

/-- Entering a loop puts two values on the return stack. -/
theorem enterLoop_carries : Carries (fun s t => t.under.under = s) enterLoop := by
  refine .andThen (.basic (.onData .swap)) fun _ => ?_
  refine .andThen (.basic .pop) fun limit => ?_
  refine .andThen (.basic .pop) fun start => ?_
  exact .bind (.pushReturn limit) (fun _ => .pushReturn start) fun hlimit hstart => by
    rw [hstart, hlimit]

/-- The test of a loop takes the index off the return stack and leaves the limit. -/
theorem nextIndex_carries : Carries (fun s t => t = s.under) nextIndex := by
  refine .bind .popReturn (g := Eq) (fun index => ?_) fun hpop hrest => hrest ▸ hpop
  refine .andThen (.basic .peekReturn) fun limit => .basic ?_
  cases index with
  | number i =>
      cases limit with
      | number l => exact .pure _
      | _ => exact .pure _
  | _ => exact .pure _

/-- One round of a loop, from the index that passed the test to the next one. -/
theorem round_carries {body rest : Effect Unit} (i : Float) (hbody : Carries Eq body)
    (hrest : Carries (fun s t => t = s.under.under) rest) :
    Carries (fun s t => t = s.under) (do
      pushReturn (.number i)
      body
      onReturns Stack.drop?
      pushReturn (.number (i + 1.0))
      rest) := by
  refine .bind (.pushReturn _) (g := fun s t => t = s.under.under) (fun _ => ?_)
    fun hpush hafter => by rw [hafter, hpush]
  refine .andThen hbody fun _ => ?_
  refine .bind .dropReturn (g := fun s t => t = s.under) (fun _ => ?_)
    fun hdrop hafter => by rw [hafter, hdrop]
  exact .bind (.pushReturn _) (fun _ => hrest) fun hpush hafter => by rw [hafter, hpush]

/-- **Nodes, blocks and calls leave the return stack as it was, and a running loop takes its
limit and its index away.** -/
theorem carries {test : Effect Bool} (htest : Carries Eq test) (fuel : Nat) :
    (∀ n, Carries Eq (node test fuel n)) ∧
    (∀ ns, Carries Eq (block test fuel ns)) ∧
    (∀ name, Carries Eq (call test fuel name)) ∧
    (∀ body, Carries (fun s t => t = s.under.under) (iterate test fuel body)) := by
  induction fuel with
  | zero =>
      have hstuck : ∀ f, Carries f (throw .outOfFuel : Effect Unit) := fun f =>
        ⟨nofun, fun _ => rfl⟩
      exact ⟨fun _ => hstuck _, fun _ => hstuck _, fun _ => hstuck _, fun _ => hstuck _⟩
  | succ fuel ih =>
      obtain ⟨hnode, hblock, hcall, hloop⟩ := ih
      refine ⟨fun n => ?_, fun ns => ?_, fun name => ?_, fun body => ?_⟩
      · cases n with
        | word name => exact hcall name
        | reference | number | text | collection => exact .basic (.push _)
        | declaration name => exact .andThen (.define _ _) fun _ => .basic (.push _)
        | definition name body => exact .define name body
        | conditional thenBody elseBody =>
            refine .andThen htest fun taken => ?_
            cases taken with
            | true => exact hblock thenBody
            | false => exact hblock elseBody
        | loop body =>
            exact .bind enterLoop_carries (fun _ => hloop body) fun henter hleave => by
              rw [hleave, henter]
      · cases ns with
        | nil => exact .basic (.pure ())
        | cons n ns => exact .andThen (hnode n) fun _ => hblock ns
      · refine .lookup fun m => ?_
        rcases m.word? name with _ | ⟨body⟩ | ⟨p⟩
        · exact .basic (.pure ())
        · exact .call (hblock body)
        · exact .basic p.run_basic
      · refine .bind nextIndex_carries (g := fun s t => t = s.under) (fun next => ?_)
          fun htake hafter => by rw [hafter, htake]
        cases next with
        | none => exact .dropReturn
        | some i => exact round_carries i (hblock body) (hloop body)

/-- Blocks are balanced. -/
theorem block_carries (fuel : Nat) (nodes : List Node) : Carries Eq (block lenient fuel nodes) :=
  (carries lenient_carries fuel).2.1 nodes

end Eval

/-! ### From one call of the interpreter to any number of them -/

namespace Machine

/-- The machines that calls of `interpret`, successful or not, lead to. -/
inductive Interpreted (start : Machine) : Machine → Prop
  | start : Interpreted start start
  | interpret {m : Machine} (h : Interpreted start m) (fuel : Nat) (nodes : List Node) :
      Interpreted start ((interpret fuel nodes).after m)

/-- No loop is running and no call is in progress. -/
def Idle (m : Machine) : Prop :=
  m.returns.values = [] ∧ m.depth = 0

theorem idle_fresh (stackSize : Nat) (sink : Sink) (world : World) :
    Idle (fresh stackSize sink world) :=
  ⟨Stack.values_empty stackSize, rfl⟩

theorem idle_interpret {m : Machine} (h : Idle m) (fuel : Nat) (nodes : List Node) :
    Idle ((interpret fuel nodes).after m) := by
  have hblock := Eval.block_carries fuel nodes
  unfold Effect.after interpret
  cases hrun : Eval.block Eval.lenient fuel nodes m with
  | ok _ n =>
      have hreturns : m.returns = n.returns := hblock.returns hrun
      have hdepth := hblock.depth m
      rw [Effect.after_ok hrun] at hdepth
      show Idle n
      rw [Idle, ← hreturns, hdepth]
      exact h
  | error reason n => exact ⟨Stack.values_clear n.returns, rfl⟩

theorem Interpreted.idle {start m : Machine} (h : Interpreted start m) (hstart : Idle start) :
    Idle m := by
  induction h with
  | start => exact hstart
  | interpret _ fuel nodes ih => exact idle_interpret ih fuel nodes

/--
**The return stack and the call depth balance.**

From any machine, a block that succeeds ends with the return stack it started
with, and a block that ends at all ends at the depth it started at.  Inside a call
that depth is positive, so counting the call out never goes below zero.  After any
number of calls of the interpreter on a fresh machine, failed ones among them, the
return stack is empty and the depth is zero.
-/
theorem returns_and_depth_balance :
    (∀ (fuel : Nat) (nodes : List Node) (m n : Machine),
      Eval.block Eval.lenient fuel nodes m = .ok () n → n.returns = m.returns) ∧
    (∀ (fuel : Nat) (nodes : List Node) (m : Machine),
      ((Eval.block Eval.lenient fuel nodes).after m).depth = m.depth) ∧
    (∀ (fuel : Nat) (body : List Node) (m n : Machine),
      Eval.enterCall m = .ok () n → 0 < ((Eval.block Eval.lenient fuel body).after n).depth) ∧
    (∀ (stackSize : Nat) (sink : Sink) (world : World) (m : Machine),
      Interpreted (fresh stackSize sink world) m → m.returns.values = [] ∧ m.depth = 0) := by
  refine ⟨?_, ?_, ?_, ?_⟩
  · intro fuel nodes m n hok
    exact ((Eval.block_carries fuel nodes).returns hok).symm
  · intro fuel nodes m
    exact (Eval.block_carries fuel nodes).depth m
  · intro fuel body m n henter
    rw [(Eval.block_carries fuel body).depth n]
    unfold Eval.enterCall at henter
    split at henter
    · exact absurd henter (by simp)
    · simp only [EStateM.Result.ok.injEq] at henter
      obtain ⟨-, rfl⟩ := henter
      exact Nat.succ_pos m.depth
  · intro stackSize sink world m h
    exact h.idle (idle_fresh stackSize sink world)

/-- Two nested loops inside a running one, three calls deep. -/
theorem returns_and_depth_balance_nested :
    let m := { fresh 8 {} .empty with returns := ⟨[.number 1.0, .number 5.0], 6⟩, depth := 3 }
    let inner : Node := .loop [.word "I", .word "drop"]
    let nodes : List Node := [.number 2.0, .number 0.0, .loop [.number 2.0, .number 0.0, inner]]
    let start := fresh 8 {} .empty
    (∃ n, Eval.block Eval.lenient 30 nodes m = .ok () n ∧ n.returns = m.returns ∧ n.depth = 3) ∧
    (∃ n, Eval.enterCall m = .ok () n ∧ 0 < ((Eval.block Eval.lenient 30 nodes).after n).depth) ∧
    Idle ((interpret 30 [inner]).after ((interpret 30 (nodes ++ [inner])).after start)) := by
  intro m inner nodes start
  obtain ⟨hreturns, hdepth, hinside, hidle⟩ := returns_and_depth_balance
  refine ⟨?_, ?_, ?_⟩
  · have hok := Effect.eq_ok_of_succeeds (e := Eval.block Eval.lenient 30 nodes) (m := m)
      (by decide +kernel)
    exact ⟨_, hok, hreturns 30 nodes m _ hok, hdepth 30 nodes m⟩
  · exact ⟨_, rfl, hinside 30 nodes m _ rfl⟩
  · exact hidle 8 {} .empty _ ((Interpreted.start.interpret 30 _).interpret 30 _)

end Machine

end DualStack
