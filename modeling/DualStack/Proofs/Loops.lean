/-
Loops, seen from outside.

A running loop keeps its limit and its index on the return stack and moves them
about between any two runs of its body.  Each of those operations could fail for
want of a value or of room.  None does: what the body finds below its own values it
leaves there, so the loop always finds the two values it put on, and the slots they
take are the slots it needs.  `Eval.running_succ` is that fact as an equation.  It
describes a round from outside the loop: the machine `m` has the return stack the
loop was started on, and the body runs on `m.inLoop limit index`.

Everything about loops follows from the equation by induction on the fuel.  A loop
aborts only if it cannot be entered or if its body aborts; and a loop whose limit is
zero has no way to end, whatever its body does.
-/
import DualStack.Proofs.Answers
import DualStack.Proofs.Balance

namespace DualStack

namespace Stack

variable {α : Type}

theorem items_eq_of_values {s : Stack α} {below : List α} {a b : α}
    (h : s.values = below ++ [a, b]) : s.items = b :: a :: below.reverse := by
  have hreverse := congrArg List.reverse h
  simpa [values] using hreverse

end Stack

namespace Machine

/-- The machine with a limit on its return stack. -/
def onLimit (limit : Value) (m : Machine) : Machine :=
  { m with returns := ⟨limit :: m.returns.items, m.returns.free - 1⟩ }

/-- The machine with a limit and an index on its return stack, as the body of a loop finds it. -/
def inLoop (limit index : Value) (m : Machine) : Machine :=
  { m with returns := ⟨index :: limit :: m.returns.items, m.returns.free - 2⟩ }

/-- The machine without the two topmost values of its data stack. -/
def takeBounds (m : Machine) : Machine :=
  { m with data := m.data.under.under }

theorem values_inLoop (limit index : Value) (m : Machine) :
    (m.inLoop limit index).returns.values = m.returns.values ++ [limit, index] := by
  simp [inLoop, Stack.values]

end Machine

namespace Eval

open Effect Machine

/-! ### The loop's own operations -/

/-- The index a loop goes on with, if it does. -/
def goesOn (limit index : Value) : Option Float :=
  match index, limit with
  | .number i, .number l => if i < l || l == 0.0 then some i else none
  | _, _ => none

theorem eq_number_of_goesOn {limit index : Value} {i : Float} (h : goesOn limit index = some i) :
    index = .number i := by
  unfold goesOn at h
  split at h
  · split at h
    · cases h
      rfl
    · exact absurd h (by simp)
  · exact absurd h (by simp)

section Own

variable {m : Machine} {limit index : Value}

theorem nextIndex_inLoop (hroom : 2 ≤ m.returns.free) :
    nextIndex (m.inLoop limit index) = .ok (goesOn limit index) (m.onLimit limit) := by
  have hpop : popReturn (m.inLoop limit index) = .ok index (m.onLimit limit) := by
    have hslots : m.returns.free - 2 + 1 = m.returns.free - 1 := by omega
    simp [popReturn, inLoop, onLimit, Stack.pop?, hslots]
  have hpeek : peekReturn (m.onLimit limit) = .ok limit (m.onLimit limit) := rfl
  unfold nextIndex goesOn
  rw [bind_ok hpop, bind_ok hpeek]
  cases index with
  | number i =>
      cases limit with
      | number l => rfl
      | _ => rfl
  | _ => rfl

theorem pushReturn_onLimit (hroom : 2 ≤ m.returns.free) :
    pushReturn index (m.onLimit limit) = .ok () (m.inLoop limit index) := by
  obtain ⟨slots, hslots⟩ := Nat.exists_eq_add_of_le hroom
  have hone : m.returns.free - 1 = slots + 1 := by omega
  have htwo : m.returns.free - 2 = slots := by omega
  simp [pushReturn, onReturns, Stack.push?, onLimit, inLoop, hone, htwo]

theorem drop_inLoop (hroom : 2 ≤ m.returns.free) :
    onReturns Stack.drop? (m.inLoop limit index) = .ok () (m.onLimit limit) := by
  have hslots : m.returns.free - 2 + 1 = m.returns.free - 1 := by omega
  simp [onReturns, Stack.drop?, Stack.pop?, inLoop, onLimit, hslots]

theorem drop_onLimit (hroom : 2 ≤ m.returns.free) :
    onReturns Stack.drop? (m.onLimit limit) = .ok () m := by
  have hslots : m.returns.free - 1 + 1 = m.returns.free := by omega
  simp [onReturns, Stack.drop?, Stack.pop?, onLimit, hslots]

end Own

/-! ### One round -/

/-- One run of the body, seen from outside the loop: the body finds limit and index on the
return stack, and once it has succeeded they are gone. -/
def round (fuel : Nat) (body : List Node) (limit index : Value) : Effect Unit := fun m =>
  match block lenient fuel body (m.inLoop limit index) with
  | .ok () n => .ok () { n with returns := m.returns }
  | .error reason n => .error reason n

/-- What happens inside a loop that has come to an index, seen from outside. -/
def inside (limit index : Value) (e : Effect Unit) : Effect Unit := fun m =>
  e (m.inLoop limit index)

/-- A running loop that has come to an index, seen from outside. -/
def running (fuel : Nat) (body : List Node) (limit index : Value) : Effect Unit :=
  inside limit index (iterate lenient fuel body)

section Rounds

variable {m n : Machine} {limit index : Value} {body : List Node} {fuel : Nat}

/-- The body gives back the return stack it was given. -/
theorem eq_inLoop_of_block (h : block lenient fuel body (m.inLoop limit index) = .ok () n) :
    n = inLoop limit index { n with returns := m.returns } := by
  have hreturns : (m.inLoop limit index).returns = n.returns :=
    (block_carries fuel body).returns h
  obtain ⟨data, returns, words, slots, sink, world, depth⟩ := n
  obtain rfl : (m.inLoop limit index).returns = returns := hreturns
  rfl

theorem round_ok (h : block lenient fuel body (m.inLoop limit index) = .ok () n) :
    round fuel body limit index m = .ok () { n with returns := m.returns } := by
  rw [round, h]

theorem round_error {reason : Abort} :
    round fuel body limit index m = .error reason n ↔
      block lenient fuel body (m.inLoop limit index) = .error reason n := by
  unfold round
  cases block lenient fuel body (m.inLoop limit index) with
  | ok _ k => simp
  | error reason' k => simp

theorem returns_of_round (h : round fuel body limit index m = .ok () n) :
    n.returns = m.returns := by
  unfold round at h
  split at h
  · cases h
    rfl
  · exact absurd h (by simp)

/-- A round seen from outside: whatever puts the index on before the body runs, takes it off after
that and puts the next one on is not seen. -/
theorem round_between {put take put' rest : Effect Unit} {next : Value}
    (hroom : 2 ≤ m.returns.free) (hput : put (m.onLimit limit) = .ok () (m.inLoop limit index))
    (htake : ∀ {k : Machine}, 2 ≤ k.returns.free →
      take (k.inLoop limit index) = .ok () (k.onLimit limit))
    (hput' : ∀ {k : Machine}, 2 ≤ k.returns.free →
      put' (k.onLimit limit) = .ok () (k.inLoop limit next)) :
    (do put; block lenient fuel body; take; put'; rest) (m.onLimit limit) =
      (do round fuel body limit index; inside limit next rest) m := by
  rw [bind_ok hput]
  cases hbody : block lenient fuel body (m.inLoop limit index) with
  | error reason n => rw [bind_error hbody, bind_error (round_error.mpr hbody)]
  | ok _ n =>
      have hafter : 2 ≤ Stack.free (Machine.returns { n with returns := m.returns }) := hroom
      rw [bind_ok (round_ok hbody)]
      -- The machine the body leaves is again one inside the loop, so its index can be taken off.
      rw [eq_inLoop_of_block hbody] at hbody
      rw [bind_ok hbody, bind_ok (htake hafter), bind_ok (hput' hafter)]
      rfl

/-- **What a loop does next depends on its limit, its index and the run of its body, and on
nothing else.** -/
theorem running_succ (hroom : 2 ≤ m.returns.free) :
    running (fuel + 1) body limit index m =
      (match goesOn limit index with
        | none => pure ()
        | some i => do
          round fuel body limit index
          running fuel body limit (.number (i + 1.0)) : Effect Unit) m := by
  rw [running, inside, iterate, bind_ok (nextIndex_inLoop hroom)]
  cases hnext : goesOn limit index with
  | none => exact drop_onLimit hroom
  | some i =>
      obtain rfl := eq_number_of_goesOn hnext
      exact round_between hroom (pushReturn_onLimit hroom) drop_inLoop pushReturn_onLimit

/-- A loop that is over leaves nothing on the return stack. -/
theorem running_over (hroom : 2 ≤ m.returns.free) (hover : goesOn limit index = none) :
    running (fuel + 1) body limit index m = .ok () m := by
  rw [running_succ hroom, hover]
  rfl

theorem running_goesOn (hroom : 2 ≤ m.returns.free) {i : Float}
    (hgoes : goesOn limit index = some i) :
    running (fuel + 1) body limit index m =
      (do round fuel body limit index; running fuel body limit (.number (i + 1.0))) m := by
  rw [running_succ hroom, hgoes]

end Rounds

/-! ### Entering a loop -/

section Enter

variable {m : Machine} {limit start : Value} {below : List Value}

theorem values_takeBounds (hdata : m.data.values = below ++ [limit, start]) :
    m.takeBounds.data.values = below := by
  have hitems := Stack.items_eq_of_values hdata
  simp [takeBounds, Stack.under, hitems, Stack.values]

/-- Two values are there: they are taken off the data stack before anything else happens. -/
theorem enterLoop_bounds (hdata : m.data.values = below ++ [limit, start]) :
    enterLoop m = (do pushReturn limit; pushReturn start) m.takeBounds := by
  obtain ⟨⟨items, free⟩, returns, words, slots, sink, world, depth⟩ := m
  obtain rfl : items = start :: limit :: below.reverse := Stack.items_eq_of_values hdata
  rfl

theorem enterLoop_eq (hdata : m.data.values = below ++ [limit, start])
    (hroom : 2 ≤ m.returns.free) :
    enterLoop m = .ok () (m.takeBounds.inLoop limit start) := by
  have hlimit : pushReturn limit m.takeBounds = .ok () (m.takeBounds.onLimit limit) := by
    obtain ⟨slots, hslots⟩ := Nat.exists_eq_add_of_le hroom
    have hfree : m.returns.free = slots + 1 + 1 := by omega
    simp [pushReturn, onReturns, Stack.push?, takeBounds, onLimit, hfree]
  rw [enterLoop_bounds hdata, bind_ok hlimit]
  exact pushReturn_onLimit hroom

/-- Entering a loop leaves a running one, seen from the machine without its bounds. -/
theorem node_loop (hdata : m.data.values = below ++ [limit, start])
    (hroom : 2 ≤ m.returns.free) (fuel : Nat) (body : List Node) :
    node lenient (fuel + 1) (.loop body) m = running fuel body limit start m.takeBounds :=
  bind_ok (enterLoop_eq hdata hroom)

/-- A loop that has bounds but no room for them cannot be entered. -/
theorem enterLoop_full (hdata : m.data.values = below ++ [limit, start])
    (hfull : m.returns.free < 2) : ∃ n, enterLoop m = .error .stack n := by
  rw [enterLoop_bounds hdata]
  obtain ⟨data, ⟨items, free⟩, words, slots, sink, world, depth⟩ := m
  match free, hfull with
  | 0, _ => exact ⟨_, rfl⟩
  | 1, _ => exact ⟨_, rfl⟩

/-- A loop without bounds is not entered, and nothing changes. -/
theorem enterLoop_unbounded (h : m.data.size < 2) : enterLoop m = .error .stack m := by
  have hswap : onData Stack.swap? m = .error .stack m := by
    obtain ⟨⟨items, free⟩, returns, words, slots, sink, world, depth⟩ := m
    match items, h with
    | [], _ => rfl
    | [v], _ => rfl
  exact bind_error hswap

theorem exists_bounds (h : 2 ≤ m.data.size) :
    ∃ below limit start, m.data.values = below ++ [limit, start] := by
  obtain ⟨⟨items, free⟩, returns, words, slots, sink, world, depth⟩ := m
  match items, h with
  | start :: limit :: below, _ => exact ⟨below.reverse, limit, start, by simp [Stack.values]⟩

end Enter

/-! ### Where an abort comes from -/

/-- The effect, with the given reason in place of any it aborts for. -/
def blaming {α : Type} (blamed : Abort) (e : Effect α) : Effect α := fun m =>
  match e m with
  | .ok a n => .ok a n
  | .error _ n => .error blamed n

/-- A running loop that gives a reason of its own for every abort that is not the body's: each
operation on its limit and its index is `blaming`. -/
def iterateBlaming (blamed : Abort) : Nat → List Node → Effect Unit
  | 0, _ => throw .outOfFuel
  | fuel + 1, body => do
    match ← blaming blamed nextIndex with
    | none => blaming blamed (onReturns Stack.drop?)
    | some i =>
      blaming blamed (pushReturn (.number i))
      block lenient fuel body
      blaming blamed (onReturns Stack.drop?)
      blaming blamed (pushReturn (.number (i + 1.0)))
      iterateBlaming blamed fuel body

/-- A loop that has come to an index runs its body from the machine `k`, in this round or in a
later one. -/
inductive Enters (body : List Node) (limit : Value) : Value → Machine → Machine → Prop
  | now {index : Value} {m : Machine} {i : Float} (hgoes : goesOn limit index = some i) :
      Enters body limit index m (m.inLoop limit index)
  | later {index : Value} {m n k : Machine} {i : Float} (hgoes : goesOn limit index = some i)
      (hround : Answers (round · body limit index) m (.ok () n))
      (hrest : Enters body limit (.number (i + 1.0)) n k) : Enters body limit index m k

section Aborts

variable {m n : Machine} {limit index : Value} {body : List Node}

theorem blaming_ok {α : Type} {blamed : Abort} {e : Effect α} {a : α} (h : e m = .ok a n) :
    blaming blamed e m = .ok a n := by
  unfold blaming
  rw [h]

/-- **It makes no difference what a loop's own operations would abort for.** -/
theorem iterateBlaming_inLoop (blamed : Abort) (body : List Node) (fuel : Nat) :
    ∀ {m : Machine} {index : Value}, 2 ≤ m.returns.free →
      iterateBlaming blamed fuel body (m.inLoop limit index) =
        running fuel body limit index m := by
  induction fuel with
  | zero =>
      intro m index _
      rfl
  | succ fuel ih =>
      intro m index hroom
      rw [iterateBlaming, bind_ok (blaming_ok (nextIndex_inLoop hroom))]
      cases hnext : goesOn limit index with
      | none => exact (blaming_ok (drop_onLimit hroom)).trans (running_over hroom hnext).symm
      | some i =>
          obtain rfl := eq_number_of_goesOn hnext
          rw [running_goesOn hroom hnext]
          refine (round_between hroom (blaming_ok (pushReturn_onLimit hroom))
            (fun h => blaming_ok (drop_inLoop h))
            (fun h => blaming_ok (pushReturn_onLimit h))).trans ?_
          cases hround : round fuel body limit (.number i) m with
          | error reason n => rw [bind_error hround, bind_error hround]
          | ok _ n =>
              have hafter : 2 ≤ n.returns.free := by rwa [returns_of_round hround]
              rw [bind_ok hround, bind_ok hround]
              exact ih hafter

/-- A loop that aborts aborts in a run of its body, for the body's reason and on the machine
the body left. -/
theorem body_aborts_of_running {reason : Abort} (hreason : reason ≠ .outOfFuel) (fuel : Nat) :
    ∀ {m : Machine} {index : Value}, 2 ≤ m.returns.free →
      running fuel body limit index m = .error reason n →
        ∃ k, Enters body limit index m k ∧ Answers (block lenient · body) k (.error reason n) := by
  induction fuel with
  | zero =>
      intro m index _ h
      cases h
      exact absurd rfl hreason
  | succ fuel ih =>
      intro m index hroom h
      cases hnext : goesOn limit index with
      | none => exact absurd ((running_over hroom hnext).symm.trans h) (by simp)
      | some i =>
          rw [running_goesOn hroom hnext] at h
          cases hround : round fuel body limit index m with
          | ok _ k =>
              rw [bind_ok hround] at h
              have hafter : 2 ≤ k.returns.free := by rwa [returns_of_round hround]
              obtain ⟨k', henters, haborts⟩ := ih hafter h
              exact ⟨k', .later hnext ⟨isAnswer_ok _ _, fuel, hround⟩ henters, haborts⟩
          | error other k =>
              rw [bind_error hround] at h
              cases h
              exact ⟨_, .now hnext, isAnswer_error.mpr hreason, fuel, round_error.mp hround⟩

end Aborts

/--
**The bookkeeping of a loop cannot fail.**

Once a loop has been entered, none of its own operations on the return stack ever
aborts, whatever its body is and however often it runs: were an abort of theirs
reported for some other reason, no outcome would be different.  So a loop aborts
only where the data stack held fewer than two values, and then nothing has changed;
where the return stack had fewer than two slots left; or where some run of its body
aborted, and then for that reason and on the machine that run left.
-/
theorem loop_bookkeeping_never_fails (body : List Node) (m : Machine) :
    (∀ k, enterLoop m = .ok () k → ∀ blamed fuel,
      iterateBlaming blamed fuel body k = iterate lenient fuel body k) ∧
    ∀ reason n, Answers (node lenient · (.loop body)) m (.error reason n) →
      (m.data.size < 2 ∧ n = m) ∨ m.returns.free < 2 ∨
      ∃ below limit start k, m.data.values = below ++ [limit, start] ∧
        Enters body limit start m.takeBounds k ∧
        Answers (block lenient · body) k (.error reason n) := by
  rcases Nat.lt_or_ge m.data.size 2 with hsmall | hsize
  · have henter := enterLoop_unbounded hsmall
    refine ⟨?_, ?_⟩
    · intro k hk
      exact absurd (henter.symm.trans hk) (by simp)
    · intro reason n h
      obtain ⟨-, fuel, hfuel⟩ := (answers_succ rfl).mp h
      have herror := (bind_error henter).symm.trans hfuel
      cases herror
      exact Or.inl ⟨hsmall, rfl⟩
  · obtain ⟨below, limit, start, hdata⟩ := exists_bounds hsize
    rcases Nat.lt_or_ge m.returns.free 2 with hfull | hroom
    · obtain ⟨k', henter⟩ := enterLoop_full hdata hfull
      refine ⟨?_, fun _ _ _ => Or.inr (Or.inl hfull)⟩
      intro k hk
      exact absurd (henter.symm.trans hk) (by simp)
    · have henter := enterLoop_eq hdata hroom
      refine ⟨?_, ?_⟩
      · intro k hk blamed fuel
        cases henter.symm.trans hk
        exact iterateBlaming_inLoop blamed body fuel hroom
      · intro reason n h
        obtain ⟨hanswer, fuel, hfuel⟩ := (answers_succ rfl).mp h
        have hloop := (node_loop hdata hroom fuel body).symm.trans hfuel
        have hinside : 2 ≤ m.takeBounds.returns.free := hroom
        obtain ⟨k, henters, haborts⟩ :=
          body_aborts_of_running (isAnswer_error.mp hanswer) fuel hinside hloop
        exact Or.inr (Or.inr ⟨below, limit, start, k, hdata, henters, haborts⟩)

/-- A body that drops a value, with one value to drop: it aborts in its second run, and the loop
with it. -/
theorem loop_bookkeeping_never_fails_second_run :
    let m := { Machine.fresh 3 {} .empty with
      data := ⟨[.number 0.0, .number 3.0, .text "one"], 0⟩, returns := ⟨[.nil], 2⟩ }
    let body : List Node := [.word "drop"]
    (∃ k, enterLoop m = .ok () k ∧ ∀ blamed fuel,
      iterateBlaming blamed fuel body k = iterate lenient fuel body k) ∧
    ∃ n, Answers (node lenient · (.loop body)) m (.error .stack n) ∧
      ∃ below limit start k, m.data.values = below ++ [limit, start] ∧
        Enters body limit start m.takeBounds k ∧
        Answers (block lenient · body) k (.error .stack n) := by
  intro m body
  obtain ⟨hown, haborts⟩ := loop_bookkeeping_never_fails body m
  have hanswer : Answers (node lenient · (.loop body)) m
      (.error .stack ((node lenient 9 (.loop body)).after m)) :=
    ⟨isAnswer_error.mpr (by simp), 9, eq_error_of_abort? (by decide +kernel)⟩
  refine ⟨⟨_, rfl, hown _ rfl⟩, _, hanswer, ?_⟩
  rcases haborts _ _ hanswer with ⟨hsmall, -⟩ | hfull | hbody
  · exact absurd hsmall (by decide)
  · exact absurd hfull (by decide)
  · exact hbody

/-! ### A limit of zero -/

theorem goesOn_zero {limit : Float} (hzero : (limit == 0.0) = true) (i : Float) :
    goesOn (.number limit) (.number i) = some i := by
  simp [goesOn, hzero]

/-- A running loop does not come to its end where something is true of its index that keeps the
loop going and that adding one keeps true. -/
theorem running_never_over {limit : Value} {P : Float → Prop}
    (hgoes : ∀ i, P i → goesOn limit (.number i) = some i) (hnext : ∀ i, P i → P (i + 1.0))
    (body : List Node) (n : Machine) (fuel : Nat) :
    ∀ {m : Machine} {i : Float}, P i → 2 ≤ m.returns.free →
      running fuel body limit (.number i) m ≠ .ok () n := by
  induction fuel with
  | zero =>
      intro m i _ _ h
      exact absurd h nofun
  | succ fuel ih =>
      intro m i hi hroom h
      rw [running_goesOn hroom (hgoes i hi)] at h
      obtain ⟨_, k, hround, hrest⟩ := of_bind_ok h
      have hafter : 2 ≤ k.returns.free := by rwa [returns_of_round hround]
      exact ih (hnext i hi) hafter hrest

/-- A running loop whose limit is zero does not come to its end. -/
theorem running_zero {limit : Float} (hzero : (limit == 0.0) = true) (body : List Node)
    (n : Machine) (fuel : Nat) {m : Machine} (i : Float) (hroom : 2 ≤ m.returns.free) :
    running fuel body (.number limit) (.number i) m ≠ .ok () n :=
  running_never_over (P := fun _ => True) (fun i _ => goesOn_zero hzero i) (fun _ _ => trivial)
    body n fuel trivial hroom

/--
**A limit of zero never ends a loop.**

If the limit is a zero, of either sign, and the start is any number, the loop does
not succeed, with however much fuel: it aborts or goes on for ever, whatever its
body does to the data stack, the words and the variables.
-/
theorem zero_limit_never_ends_loop {m : Machine} {below : List Value} {limit start : Float}
    (hdata : m.data.values = below ++ [.number limit, .number start])
    (hzero : (limit == 0.0) = true) (body : List Node) (fuel : Nat) (n : Machine) :
    node lenient fuel (.loop body) m ≠ .ok () n := by
  intro h
  cases fuel with
  | zero => exact absurd h nofun
  | succ fuel =>
      rcases Nat.lt_or_ge m.returns.free 2 with hfull | hroom
      · obtain ⟨k, henter⟩ := enterLoop_full hdata hfull
        exact absurd ((bind_error henter).symm.trans h) (by simp)
      · have hloop := (node_loop hdata hroom fuel body).symm.trans h
        have hinside : 2 ≤ m.takeBounds.returns.free := hroom
        exact running_zero hzero body n fuel start hinside hloop

/-- A negative zero as the limit, and a start that is not a number at all. -/
theorem zero_limit_never_ends_loop_negative :
    let m := { Machine.fresh 4 {} .empty with
      data := ⟨[.number (0.0 / 0.0), .number (-0.0), .text "below"], 1⟩ }
    let body : List Node := [.word "I", .definition "I" [.word "drop"], .word "drop"]
    m.data.values = [.text "below"] ++ [.number (-0.0), .number (0.0 / 0.0)] ∧
    ((-0.0 : Float) == 0.0) = true ∧ ∀ fuel n, node lenient fuel (.loop body) m ≠ .ok () n := by
  intro m body
  have hdata : m.data.values = [.text "below"] ++ [.number (-0.0), .number (0.0 / 0.0)] := rfl
  have hzero : ((-0.0 : Float) == 0.0) = true := by decide +kernel
  exact ⟨hdata, hzero, zero_limit_never_ends_loop hdata hzero body⟩

end Eval

end DualStack
