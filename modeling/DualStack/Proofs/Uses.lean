/-
What a machine goes through while it is used.

From outside a machine can be made to interpret nodes, to run a source or a single
primitive, and its stacks can be pushed on and cleared.  `Machine.Use` lists these,
and `Machine.Passes` tells the points that any number of uses pass through, one use
after the other and whether or not they succeed.

Between two uses no call is in progress.  Within a use the calls that a point lies
in are exactly those the machine counts: this is `Effect.Passes.depth`, by induction
on how the points come about, and it carries over to all uses of a machine that
starts at depth zero.

From point to point a machine takes a step of evaluation or, where an abort ends a
run, forgets the bookkeeping of the loops and calls it left (`Machine.Change`).
-/
import DualStack.Proofs.Passage

namespace DualStack

namespace Machine

/-- Something a machine is used for. -/
inductive Use where
  /-- Evaluate nodes. -/
  | interpret (fuel : Nat) (nodes : List Node)
  /-- Run a source. -/
  | run (fuel : Nat) (source : String)
  /-- Run one primitive. -/
  | invoke (p : Primitive)
  /-- Push a value on the data stack. -/
  | push (v : Value)
  /-- Push a value on the return stack. -/
  | pushReturn (v : Value)
  /-- Empty the data stack. -/
  | clear
  /-- Empty the return stack. -/
  | clearReturns

/-- The machine a use leaves behind. -/
def Use.after (m : Machine) : Use → Machine
  | interpret fuel nodes => (Machine.interpret fuel nodes).after m
  | run fuel source =>
    match Session.run fuel source m with
    | .ok _ n => n
    | .error _ n => n
  | invoke p => p.run.after m
  | push v => (Effect.push v).after m
  | pushReturn v => (Effect.pushReturn v).after m
  | clear => { m with data := m.data.clear }
  | clearReturns => { m with returns := m.returns.clear }

/-- From a machine, a use passes through these points. -/
inductive Use.Passes : Use → Machine → List Point → Prop
  /-- The points of the block, and the machine that is left once an abort has been dealt with. -/
  | interpret {fuel : Nat} {nodes : List Node} {m : Machine} {l : List Point}
      (h : Effect.Passes (Eval.block Eval.lenient fuel nodes) m l) :
      Passes (.interpret fuel nodes) m (l ++ [⟨0, (Use.interpret fuel nodes).after m⟩])
  /-- A source that parses passes through the points of its nodes. -/
  | run {fuel : Nat} {source : String} {nodes : List Node} {m : Machine} {l : List Point}
      (hparse : parse source = .ok nodes) (h : Passes (.interpret fuel nodes) m l) :
      Passes (.run fuel source) m l
  /-- A source that does not parse is not run at all. -/
  | unparsed {fuel : Nat} {source : String} {error : ParseError} {m : Machine}
      (hparse : parse source = .error error) : Passes (.run fuel source) m []
  | invoke {p : Primitive} {m : Machine} {l : List Point} (h : Effect.Passes p.run m l) :
      Passes (.invoke p) m l
  | push {m : Machine} (v : Value) : Passes (.push v) m [⟨0, (Use.push v).after m⟩]
  | pushReturn {m : Machine} (v : Value) :
      Passes (.pushReturn v) m [⟨0, (Use.pushReturn v).after m⟩]
  | clear {m : Machine} : Passes .clear m [⟨0, Use.clear.after m⟩]
  | clearReturns {m : Machine} : Passes .clearReturns m [⟨0, Use.clearReturns.after m⟩]

/-- From a machine, uses one after the other pass through these points. -/
inductive Passes : List Use → Machine → List Point → Prop
  | nil {m : Machine} : Passes [] m []
  | cons {u : Use} {us : List Use} {m : Machine} {l l' : List Point} (hu : u.Passes m l)
      (hrest : Passes us (u.after m) l') : Passes (u :: us) m (l ++ l')

/-- Flushing does nothing to the machine, however it goes. -/
theorem flush_cases (m : Machine) :
    Session.flush m = .ok () m ∨ ∃ fault, Session.flush m = .error fault m := by
  unfold Session.flush Sink.flush
  cases m.sink.stuck with
  | none => exact Or.inl rfl
  | some fault => exact Or.inr ⟨fault, rfl⟩

/-- A run of a source that parses leaves the machine that its nodes leave. -/
theorem Use.after_run {fuel : Nat} {source : String} {nodes : List Node}
    (hparse : parse source = .ok nodes) (m : Machine) :
    (Use.run fuel source).after m = (Use.interpret fuel nodes).after m := by
  simp only [Use.after, Session.run, Effect.after, hparse]
  cases Machine.interpret fuel nodes m with
  | ok _ n =>
      rcases flush_cases n with hflush | ⟨fault, hflush⟩
      · simp only [hflush]
      · simp only [hflush]
  | error reason n =>
      rcases flush_cases n with hflush | ⟨fault, hflush⟩
      · simp only [hflush]
      · simp only [hflush]

theorem Use.after_unparsed {fuel : Nat} {source : String} {error : ParseError}
    (hparse : parse source = .error error) (m : Machine) : (Use.run fuel source).after m = m := by
  simp only [Use.after, Session.run, hparse]

/-! ### Every use passes through some points -/

theorem Use.world_interpret (fuel : Nat) (nodes : List Node) (m : Machine) :
    ((Use.interpret fuel nodes).after m).world =
      ((Eval.block Eval.lenient fuel nodes).after m).world := by
  simp only [Use.after, Effect.after, Machine.interpret]
  cases Eval.block Eval.lenient fuel nodes m with
  | ok _ n => rfl
  | error reason n => rfl

/-- Every use passes through some points, with at most one operation on the world from each to
the next. -/
theorem Use.exists_orderly (u : Use) (m : Machine) :
    ∃ l, u.Passes m l ∧ Trail Turn m (Point.machines l) (u.after m) := by
  have hinterpret : ∀ fuel nodes, ∃ l, (Use.interpret fuel nodes).Passes m l ∧
      Trail Turn m (Point.machines l) ((Use.interpret fuel nodes).after m) := by
    intro fuel nodes
    obtain ⟨l, hl, htrail⟩ := Eval.block_orderly fuel nodes m
    refine ⟨_, .interpret hl, ?_⟩
    rw [Point.machines_append]
    exact htrail.append (.single (.of_eq (Use.world_interpret fuel nodes m)))
  cases u with
  | interpret fuel nodes => exact hinterpret fuel nodes
  | run fuel source =>
      cases hparse : parse source with
      | error error =>
          refine ⟨[], .unparsed hparse, ?_⟩
          rw [Use.after_unparsed hparse]
          exact .nil
      | ok nodes =>
          obtain ⟨l, hl, htrail⟩ := hinterpret fuel nodes
          rw [← Use.after_run hparse] at htrail
          exact ⟨l, .run hparse hl, htrail⟩
  | invoke p =>
      obtain ⟨l, hl, htrail⟩ := Effect.Orderly.primitive p m
      exact ⟨l, .invoke hl, htrail⟩
  | push v => exact ⟨_, .push v, .single (.of_eq (Effect.world_onData _ m))⟩
  | pushReturn v => exact ⟨_, .pushReturn v, .single (.of_eq (Effect.world_onReturns _ m))⟩
  | clear => exact ⟨_, .clear, .single (.of_eq rfl)⟩
  | clearReturns => exact ⟨_, .clearReturns, .single (.of_eq rfl)⟩

/-- **However a machine is used, the operations on its world happen one by one**, between the
points the uses pass through. -/
theorem exists_orderly (us : List Use) : ∀ m : Machine,
    ∃ l, Passes us m l ∧ Trail Turn m (Point.machines l) (us.foldl Use.after m) := by
  induction us with
  | nil => exact fun m => ⟨[], .nil, .nil⟩
  | cons u us ih =>
      intro m
      obtain ⟨l, hl, htrail⟩ := u.exists_orderly m
      obtain ⟨l', hl', htrail'⟩ := ih (u.after m)
      refine ⟨l ++ l', .cons hl hl', ?_⟩
      rw [Point.machines_append]
      exact htrail.append htrail'

theorem exists_passes (us : List Use) (m : Machine) : ∃ l, Passes us m l := by
  obtain ⟨l, hl, -⟩ := exists_orderly us m
  exact ⟨l, hl⟩

/-! ### From point to point -/

/-- One thing that can happen to a machine while it is used. -/
inductive Change (m : Machine) : Machine → Prop
  | step {n : Machine} (h : Step (fun _ => True) m n) : Change m n
  /-- An abort is dealt with. -/
  | reset : Change m m.reset

theorem Use.Passes.trail {u : Use} {m : Machine} {l : List Point} (h : u.Passes m l) :
    Trail Change m (Point.machines l) (u.after m) := by
  induction h with
  | @interpret fuel nodes m l h =>
      have hblock := h.trail.mono Change.step
      have hend : Change ((Eval.block Eval.lenient fuel nodes).after m)
          ((Use.interpret fuel nodes).after m) := by
        simp only [Use.after, Effect.after, Machine.interpret]
        cases Eval.block Eval.lenient fuel nodes m with
        | ok _ n => exact .step (.move (.data n.data rfl))
        | error reason n => exact .reset
      rw [Point.machines_append]
      exact hblock.append (.single hend)
  | run hparse _ ih =>
      rw [Use.after_run hparse]
      exact ih
  | unparsed hparse =>
      rw [Use.after_unparsed hparse]
      exact .nil
  | invoke h => exact h.trail.mono Change.step
  | push v => exact .single (.step ((Effect.Atom.onData (.push v)).step _))
  | pushReturn v => exact .single (.step ((Effect.Atom.onReturns (.push v)).step _))
  | clear => exact .single (.step (.move (.data _ (Stack.capacity_clear _))))
  | clearReturns => exact .single (.step (.returns _ (Stack.capacity_clear _)))

/-- **However a machine is used, it changes step by step from point to point**, down to the
machine that the last use leaves behind. -/
theorem Passes.trail {us : List Use} {m : Machine} {l : List Point} (h : Passes us m l) :
    Trail Change m (Point.machines l) (us.foldl Use.after m) := by
  induction h with
  | nil => exact .nil
  | cons hu _ ih =>
      rw [Point.machines_append]
      exact hu.trail.append ih

end Machine

/-! ### Calls in progress -/

namespace Effect

/-- **The calls a point lies in are those its machine counts**, over and above the ones that
were in progress from the start; and in the end the count is back where it was. -/
theorem Passes.depth {α : Type} {e : Effect α} {m : Machine} {l : List Point}
    (h : Passes e m l) :
    (∀ p ∈ l, p.machine.depth = m.depth + p.calls) ∧ (e.after m).depth = m.depth := by
  induction h with
  | pure a => exact ⟨by simp, rfl⟩
  | outOfFuel => exact ⟨by simp, rfl⟩
  | @atom _ e m ha =>
      have hdepth := (ha.after_sink_depth m).2
      exact ⟨by simpa using hdepth, hdepth⟩
  | @next _ _ e f m n a l l' _ hok _ ihe ihf =>
      obtain ⟨hfirst, hmiddle⟩ := ihe
      obtain ⟨hrest, hend⟩ := ihf
      rw [after_ok hok] at hmiddle
      rw [hmiddle] at hrest hend
      refine ⟨?_, ?_⟩
      · intro p hp
        rcases List.mem_append.mp hp with hp | hp
        · exact hfirst p hp
        · exact hrest p hp
      · rw [after, bind_ok hok]
        exact hend
  | stop _ herror ihe =>
      obtain ⟨hfirst, hend⟩ := ihe
      rw [after_error herror] at hend
      exact ⟨hfirst, by rw [after, bind_error herror]; exact hend⟩
  | load _ ih => exact ih
  | word _ ih => exact ih
  | @print m n v hpop =>
      have hpopped := (Atom.pop.after_sink_depth m).2
      rw [after_ok hpop] at hpopped
      have hprinted : ((Effect.print (Text.bytes v.display)).after n).depth = n.depth := by
        unfold after Effect.print
        cases Sink.write (Text.bytes v.display) n.sink <;> rfl
      refine ⟨by simp [hpopped, hprinted], ?_⟩
      rw [after, Primitive.printTop, bind_ok hpop]
      exact hprinted.trans hpopped
  | @call body m l hroom _ ih =>
      obtain ⟨hinside, hend⟩ := ih
      have hout : ((invocation body).after m).depth = m.depth := by
        rw [invocation_after hroom]
        show (body.after { m with depth := m.depth + 1 }).depth - 1 = m.depth
        rw [hend, Nat.add_sub_cancel]
      refine ⟨?_, hout⟩
      intro p hp
      simp only [List.mem_cons, List.mem_append, List.mem_map, List.not_mem_nil, or_false] at hp
      rcases hp with rfl | ⟨q, hq, rfl⟩ | rfl
      · rfl
      · have hdepth : q.machine.depth = m.depth + 1 + q.calls := hinside q hq
        show q.machine.depth = m.depth + (q.calls + 1)
        omega
      · exact hout
  | refuse hfull =>
      refine ⟨by simp, ?_⟩
      rw [after, invocation_refused hfull]

end Effect

namespace Machine

theorem Use.Passes.depth {u : Use} {m : Machine} {l : List Point} (h : u.Passes m l)
    (hm : m.depth = 0) : (∀ p ∈ l, p.machine.depth = p.calls) ∧ (u.after m).depth = 0 := by
  induction h with
  | @interpret fuel nodes m l h =>
      obtain ⟨hinside, hend⟩ := h.depth
      have hout : ((Use.interpret fuel nodes).after m).depth = 0 := by
        simp only [Use.after, Effect.after, Machine.interpret]
        cases hrun : Eval.block Eval.lenient fuel nodes m with
        | ok _ n =>
            rw [Effect.after_ok hrun] at hend
            exact hend.trans hm
        | error reason n => rfl
      refine ⟨?_, hout⟩
      intro p hp
      rcases List.mem_append.mp hp with hp | hp
      · rw [hinside p hp, hm, Nat.zero_add]
      · obtain rfl := List.mem_singleton.mp hp
        exact hout
  | run hparse _ ih =>
      rw [Use.after_run hparse]
      exact ih hm
  | unparsed hparse =>
      rw [Use.after_unparsed hparse]
      exact ⟨by simp, hm⟩
  | invoke h =>
      obtain ⟨hinside, hend⟩ := h.depth
      refine ⟨?_, hend.trans hm⟩
      intro p hp
      rw [hinside p hp, hm, Nat.zero_add]
  | @push m v =>
      have hpushed := ((Effect.Atom.onData (.push v)).after_sink_depth m).2.trans hm
      exact ⟨List.forall_mem_singleton.mpr hpushed, hpushed⟩
  | @pushReturn m v =>
      have hpushed := ((Effect.Atom.onReturns (.push v)).after_sink_depth m).2.trans hm
      exact ⟨List.forall_mem_singleton.mpr hpushed, hpushed⟩
  | clear => exact ⟨List.forall_mem_singleton.mpr hm, hm⟩
  | clearReturns => exact ⟨List.forall_mem_singleton.mpr hm, hm⟩

theorem Passes.depth {us : List Use} {m : Machine} {l : List Point} (h : Passes us m l)
    (hm : m.depth = 0) : ∀ p ∈ l, p.machine.depth = p.calls := by
  induction h with
  | nil => simp
  | cons hu _ ih =>
      obtain ⟨hinside, hend⟩ := hu.depth hm
      intro p hp
      rcases List.mem_append.mp hp with hp | hp
      · exact hinside p hp
      · exact ih hend p hp

end Machine

end DualStack
