/-
Fuel is nothing but a bound.

Evaluation takes fuel because a loop may go on for ever.  For the bound to be
harmless an evaluation that came to an answer, a success or an abort, must come
to the same answer with more fuel.  `Effect.Extends` is that relation between two
effects, and it passes through every construct the evaluator is built from, so
the four mutual functions follow by one induction on the fuel.
-/
import DualStack.Machine.Eval

namespace DualStack

/-- The effect `e'` gives every answer that `e` gives, where running out of fuel is none. -/
def Effect.Extends {α : Type} (e e' : Effect α) : Prop :=
  ∀ m, (∃ m', e m = .error .outOfFuel m') ∨ e' m = e m

namespace Effect.Extends

theorem refl {α : Type} (e : Effect α) : Extends e e :=
  fun _ => Or.inr rfl

theorem trans {α : Type} {e e' e'' : Effect α} (h : Extends e e') (h' : Extends e' e'') :
    Extends e e'' := by
  intro m
  rcases h m with stuck | same
  · exact Or.inl stuck
  · rcases h' m with ⟨m', stuck'⟩ | same'
    · exact Or.inl ⟨m', same ▸ stuck'⟩
    · exact Or.inr (same'.trans same)

/-- Whatever replaces an effect without fuel extends it. -/
theorem of_outOfFuel {α : Type} (e : Effect α) : Extends (throw .outOfFuel) e :=
  fun m => Or.inl ⟨m, rfl⟩

theorem bind {α β : Type} {e e' : Effect α} {f f' : α → Effect β} (he : Extends e e')
    (hf : ∀ a, Extends (f a) (f' a)) : Extends (e >>= f) (e' >>= f') := by
  intro m
  show (∃ m', EStateM.bind e f m = _) ∨ EStateM.bind e' f' m = EStateM.bind e f m
  unfold EStateM.bind
  rcases he m with ⟨m', stuck⟩ | same
  · rw [stuck]
    exact Or.inl ⟨m', rfl⟩
  · rw [same]
    cases e m with
    | ok a m' => exact hf a m'
    | error reason m' => exact Or.inr rfl

theorem leaveCall {e e' : Effect Unit} (h : Extends e e') :
    Extends (Eval.leaveCall e) (Eval.leaveCall e') := by
  intro m
  unfold Eval.leaveCall
  rcases h m with ⟨m', stuck⟩ | same
  · rw [stuck]
    exact Or.inl ⟨_, rfl⟩
  · rw [same]
    exact Or.inr rfl

end Effect.Extends

namespace Eval

open Effect

/-- One more unit of fuel keeps every answer, for each of the four functions. -/
theorem extends_succ (test : Effect Bool) (fuel : Nat) :
    (∀ n, Extends (node test fuel n) (node test (fuel + 1) n)) ∧
    (∀ ns, Extends (block test fuel ns) (block test (fuel + 1) ns)) ∧
    (∀ name, Extends (call test fuel name) (call test (fuel + 1) name)) ∧
    (∀ body, Extends (iterate test fuel body) (iterate test (fuel + 1) body)) := by
  induction fuel with
  | zero =>
    exact ⟨fun _ => .of_outOfFuel _, fun _ => .of_outOfFuel _, fun _ => .of_outOfFuel _,
      fun _ => .of_outOfFuel _⟩
  | succ fuel ih =>
    obtain ⟨ofNode, ofBlock, ofCall, ofLoop⟩ := ih
    refine ⟨fun n => ?_, fun ns => ?_, fun name => ?_, fun body => ?_⟩
    · cases n with
      | word name => exact ofCall name
      | conditional thenBody elseBody =>
        refine .bind (.refl _) fun taken => ?_
        cases taken
        · exact ofBlock elseBody
        · exact ofBlock thenBody
      | loop body => exact .bind (.refl _) fun _ => ofLoop body
      | _ => exact .refl _
    · cases ns with
      | nil => exact .refl _
      | cons n ns => exact .bind (ofNode n) fun _ => ofBlock ns
    · refine .bind (.refl _) fun m => ?_
      rcases m.word? name with _ | ⟨body⟩ | ⟨p⟩
      · exact .refl _
      · exact .bind (.refl _) fun _ => (ofBlock body).leaveCall
      · exact .refl _
    · refine .bind (.refl _) fun next => ?_
      cases next with
      | none => exact .refl _
      | some i =>
        exact .bind (.refl _) fun _ => .bind (ofBlock body) fun _ => .bind (.refl _) fun _ =>
          .bind (.refl _) fun _ => ofLoop body

/-- More fuel keeps every answer of a block. -/
theorem block_extends_of_le (test : Effect Bool) (ns : List Node) {fuel more : Nat}
    (h : fuel ≤ more) : Extends (block test fuel ns) (block test more ns) := by
  induction h with
  | refl => exact .refl _
  | step _ ih => exact ih.trans ((extends_succ test _).2.1 ns)

end Eval

end DualStack
