/-
Answers, apart from the fuel they take.

Fuel bounds the depth of an evaluation and is no part of what a program means.
What a program means is its answer: the outcome it has with any fuel that is
enough.  `Effect.Answers` relates a family of effects, one for each amount of fuel,
to that outcome.  A family that keeps its answers when it gets more fuel has at
most one answer, and answers compose: those of a sequence are known from those of
its parts (`answers_bind`), and so are those of a block from its nodes and those of
two blocks in a row from the blocks.

Nothing but the bound itself makes an evaluation run out of fuel.  The effects
that primitives are made of always come to an answer.
-/
import DualStack.Machine.Fuel
import DualStack.Proofs.Effects

namespace DualStack

/-- An outcome that is not for want of fuel. -/
def IsAnswer {α : Type} (r : EStateM.Result Abort Machine α) : Prop :=
  ∀ m, r ≠ .error .outOfFuel m

theorem isAnswer_ok {α : Type} (a : α) (m : Machine) :
    IsAnswer (.ok a m : EStateM.Result Abort Machine α) := by
  intro n h
  exact absurd h (by simp)

theorem isAnswer_error {α : Type} {reason : Abort} {m : Machine} :
    IsAnswer (.error reason m : EStateM.Result Abort Machine α) ↔ reason ≠ .outOfFuel := by
  constructor
  · rintro h rfl
    exact h m rfl
  · intro h n heq
    exact h (by cases heq; rfl)

namespace Effect

variable {α β : Type}

/-- A family of effects, one for each amount of fuel, that keeps its answers when it gets
more. -/
def Steady (e : Nat → Effect α) : Prop :=
  ∀ ⦃fuel more : Nat⦄, fuel ≤ more → Extends (e fuel) (e more)

/-- With enough fuel the effects come to this answer. -/
def Answers (e : Nat → Effect α) (m : Machine) (r : EStateM.Result Abort Machine α) : Prop :=
  IsAnswer r ∧ ∃ fuel, e fuel m = r

theorem Steady.of_succ {e : Nat → Effect α} (h : ∀ fuel, Extends (e fuel) (e (fuel + 1))) :
    Steady e := by
  intro fuel more hle
  induction hle with
  | refl => exact .refl _
  | step _ ih => exact ih.trans (h _)

theorem Steady.const (e : Effect α) : Steady fun _ => e :=
  fun _ _ _ => .refl e

theorem Steady.eq_of_le {e : Nat → Effect α} (he : Steady e) {fuel more : Nat} {m : Machine}
    {r : EStateM.Result Abort Machine α} (hr : IsAnswer r) (h : e fuel m = r)
    (hle : fuel ≤ more) : e more m = r := by
  rcases he hle m with ⟨n, hstuck⟩ | hsame
  · exact absurd (h.symm.trans hstuck) (hr n)
  · exact hsame.trans h

/-- From some fuel on, the effects do not change any more. -/
theorem Answers.eventually {e : Nat → Effect α} (he : Steady e) {m : Machine}
    {r : EStateM.Result Abort Machine α} (h : Answers e m r) :
    ∃ fuel, ∀ more, fuel ≤ more → e more m = r := by
  obtain ⟨hr, fuel, hfuel⟩ := h
  exact ⟨fuel, fun more hle => he.eq_of_le hr hfuel hle⟩

/-- There is no other answer. -/
theorem Answers.unique {e : Nat → Effect α} (he : Steady e) {m : Machine}
    {r r' : EStateM.Result Abort Machine α} (h : Answers e m r) (h' : Answers e m r') :
    r = r' := by
  obtain ⟨fuel, hfuel⟩ := h.eventually he
  obtain ⟨more, hmore⟩ := h'.eventually he
  exact (hfuel _ (Nat.le_max_left fuel more)).symm.trans (hmore _ (Nat.le_max_right fuel more))

/-- Only the outcomes matter, not how they come about. -/
theorem answers_congr {e e' : Nat → Effect α} {m m' : Machine}
    (h : ∀ fuel, e' fuel m' = e fuel m) {r : EStateM.Result Abort Machine α} :
    Answers e' m' r ↔ Answers e m r := by
  unfold Answers
  simp only [h]

/-- The first unit of fuel is spent on starting. -/
theorem answers_succ {e : Nat → Effect α} (hzero : e 0 = throw .outOfFuel) {m : Machine}
    {r : EStateM.Result Abort Machine α} :
    Answers e m r ↔ Answers (fun fuel => e (fuel + 1)) m r := by
  constructor
  · rintro ⟨hr, fuel, hfuel⟩
    cases fuel with
    | zero =>
        rw [hzero] at hfuel
        exact absurd hfuel.symm (hr m)
    | succ fuel => exact ⟨hr, fuel, hfuel⟩
  · rintro ⟨hr, fuel, hfuel⟩
    exact ⟨hr, fuel + 1, hfuel⟩

/-- **The answers of a sequence are those of its parts.** -/
theorem answers_bind {e : Nat → Effect α} {f : α → Nat → Effect β} (he : Steady e)
    (hf : ∀ a, Steady (f a)) {m : Machine} {r : EStateM.Result Abort Machine β} :
    Answers (fun fuel => e fuel >>= fun a => f a fuel) m r ↔
      (∃ a k, Answers e m (.ok a k) ∧ Answers (f a) k r) ∨
      (∃ reason k, Answers e m (.error reason k) ∧ r = .error reason k) := by
  constructor
  · rintro ⟨hr, fuel, hfuel⟩
    cases hfirst : e fuel m with
    | ok a k =>
        have hrest : f a fuel k = r := (bind_ok hfirst).symm.trans hfuel
        exact Or.inl ⟨a, k, ⟨isAnswer_ok a k, fuel, hfirst⟩, hr, fuel, hrest⟩
    | error reason k =>
        obtain rfl : .error reason k = r := (bind_error hfirst).symm.trans hfuel
        have hreason := isAnswer_error.mp hr
        exact Or.inr ⟨reason, k, ⟨isAnswer_error.mpr hreason, fuel, hfirst⟩, rfl⟩
  · rintro (⟨a, k, ⟨hok, fuel, hfirst⟩, hr, more, hrest⟩ |
      ⟨reason, k, ⟨hok, fuel, hfirst⟩, rfl⟩)
    · -- Each part may take its own fuel; the larger is enough for both.
      refine ⟨hr, max fuel more, ?_⟩
      have hfirst' := he.eq_of_le hok hfirst (Nat.le_max_left fuel more)
      have hrest' := (hf a).eq_of_le hr hrest (Nat.le_max_right fuel more)
      exact (bind_ok hfirst').trans hrest'
    · exact ⟨isAnswer_error.mpr (isAnswer_error.mp hok), fuel, bind_error hfirst⟩

/-- The same where the first part gives nothing to the second but the machine. -/
theorem answers_then {e : Nat → Effect Unit} {f : Nat → Effect β} (he : Steady e)
    (hf : Steady f) {m : Machine} {r : EStateM.Result Abort Machine β} :
    Answers (fun fuel => e fuel >>= fun _ => f fuel) m r ↔
      (∃ k, Answers e m (.ok () k) ∧ Answers f k r) ∨
      (∃ reason k, Answers e m (.error reason k) ∧ r = .error reason k) := by
  refine (answers_bind he fun _ => hf).trans (or_congr_left ?_)
  constructor
  · rintro ⟨_, k, hfirst, hrest⟩
    exact ⟨k, hfirst, hrest⟩
  · rintro ⟨k, hfirst, hrest⟩
    exact ⟨(), k, hfirst, hrest⟩

theorem answers_pure {a : α} {m : Machine} {r : EStateM.Result Abort Machine α} :
    Answers (fun _ => Pure.pure a) m r ↔ r = .ok a m := by
  constructor
  · rintro ⟨-, _, rfl⟩
    rfl
  · rintro rfl
    exact ⟨isAnswer_ok a m, 0, rfl⟩

/-! ### Coming to an answer -/

/-- With enough fuel the effects come to some answer. -/
def Ends (e : Nat → Effect α) (m : Machine) : Prop :=
  ∃ r, Answers e m r

theorem Ends.of_succ {e : Nat → Effect α} (hzero : e 0 = throw .outOfFuel) {m : Machine}
    (h : Ends (fun fuel => e (fuel + 1)) m) : Ends e m := by
  obtain ⟨r, hr⟩ := h
  exact ⟨r, (answers_succ hzero).mpr hr⟩

theorem Ends.congr {e e' : Nat → Effect α} {m m' : Machine} (h : ∀ fuel, e' fuel m' = e fuel m)
    (he : Ends e m) : Ends e' m' := by
  obtain ⟨r, hr⟩ := he
  exact ⟨r, (answers_congr h).mpr hr⟩

theorem Ends.bind {e : Nat → Effect α} {f : α → Nat → Effect β} (he : Steady e)
    (hf : ∀ a, Steady (f a)) {m : Machine} (h : Ends e m)
    (hrest : ∀ a k, Answers e m (.ok a k) → Ends (f a) k) :
    Ends (fun fuel => e fuel >>= fun a => f a fuel) m := by
  obtain ⟨r, hr⟩ := h
  cases r with
  | ok a k =>
      obtain ⟨r, hr'⟩ := hrest a k hr
      exact ⟨r, (answers_bind he hf).mpr (Or.inl ⟨a, k, hr, hr'⟩)⟩
  | error reason k =>
      exact ⟨.error reason k, (answers_bind he hf).mpr (Or.inr ⟨reason, k, hr, rfl⟩)⟩

theorem Ends.leaveCall {e : Nat → Effect Unit} {m : Machine} (h : Ends e m) :
    Ends (fun fuel => Eval.leaveCall (e fuel)) m := by
  obtain ⟨r, hr, fuel, hfuel⟩ := h
  refine ⟨Eval.leaveCall (e fuel) m, ?_, fuel, rfl⟩
  unfold Eval.leaveCall
  rw [hfuel]
  cases r with
  | ok _ k => exact isAnswer_ok _ _
  | error reason k => exact isAnswer_error.mpr (isAnswer_error.mp hr)

/-! ### Effects that need no fuel -/

/-- Effects made of base effects never run out of fuel. -/
theorem Basic.isAnswer {e : Effect α} (h : Basic e) : ∀ m, IsAnswer (e m) := by
  induction h with
  | pure a => exact isAnswer_ok a
  | @bind _ _ e f _ _ ihe ihf =>
      intro m
      cases hfirst : e m with
      | ok a k =>
          rw [bind_ok hfirst]
          exact ihf a k
      | error reason k =>
          have hreason := ihe m
          rw [hfirst, isAnswer_error] at hreason
          rw [bind_error hfirst]
          exact isAnswer_error.mpr hreason
  | @onData change _ =>
      intro m
      unfold Effect.onData
      cases change m.data with
      | none => exact isAnswer_error.mpr (by simp)
      | some s => exact isAnswer_ok _ _
  | pop =>
      intro m
      unfold Effect.pop
      cases m.data.pop? with
      | none => exact isAnswer_error.mpr (by simp)
      | some popped => exact isAnswer_ok _ _
  | peek =>
      intro m
      unfold Effect.peek
      cases m.data.peek? with
      | none => exact isAnswer_error.mpr (by simp)
      | some v => exact isAnswer_ok _ _
  | peekReturn =>
      intro m
      unfold Effect.peekReturn
      cases m.returns.peek? with
      | none => exact isAnswer_error.mpr (by simp)
      | some v => exact isAnswer_ok _ _
  | store name v => exact fun m => isAnswer_ok _ _
  | load name _ ih => exact fun m => ih (m.load name) m
  | print bytes =>
      intro m
      unfold Effect.print
      cases Sink.write bytes m.sink with
      | ok _ s => exact isAnswer_ok _ _
      | error fault s => exact isAnswer_error.mpr (by simp)
  | attempt act =>
      intro m
      unfold Effect.attempt
      cases act m.world with
      | ok a w => exact isAnswer_ok _ _
      | error fault w => exact isAnswer_ok _ _

theorem Ends.basic {e : Effect α} (h : Basic e) (m : Machine) : Ends (fun _ => e) m :=
  ⟨e m, h.isAnswer m, 0, rfl⟩

end Effect

namespace Eval

open Effect

variable {test : Effect Bool} {m : Machine} {r : EStateM.Result Abort Machine Unit}

theorem node_steady (test : Effect Bool) (n : Node) : Steady (node test · n) :=
  .of_succ fun fuel => (extends_succ test fuel).1 n

theorem block_steady (test : Effect Bool) (ns : List Node) : Steady (block test · ns) :=
  fun _ _ => block_extends_of_le test ns

theorem iterate_steady (test : Effect Bool) (body : List Node) : Steady (iterate test · body) :=
  .of_succ fun fuel => (extends_succ test fuel).2.2.2 body

theorem block_answers_nil : Answers (block test · []) m r ↔ r = .ok () m :=
  (answers_succ rfl).trans answers_pure

/-- The answers of a block are those of its first node and of the rest. -/
theorem block_answers_cons {n : Node} {ns : List Node} :
    Answers (block test · (n :: ns)) m r ↔
      (∃ k, Answers (node test · n) m (.ok () k) ∧ Answers (block test · ns) k r) ∨
      (∃ reason k, Answers (node test · n) m (.error reason k) ∧ r = .error reason k) :=
  (answers_succ rfl).trans (answers_then (node_steady test n) (block_steady test ns))

/-- **Two blocks in a row are one block.** -/
theorem block_answers_append {ms : List Node} : ∀ {ns : List Node} {m : Machine},
    Answers (block test · (ns ++ ms)) m r ↔
      (∃ k, Answers (block test · ns) m (.ok () k) ∧ Answers (block test · ms) k r) ∨
      (∃ reason k, Answers (block test · ns) m (.error reason k) ∧ r = .error reason k) := by
  intro ns
  induction ns with
  | nil =>
      intro m
      constructor
      · intro h
        exact Or.inl ⟨m, block_answers_nil.mpr rfl, h⟩
      · rintro (⟨k, hnil, hrest⟩ | ⟨reason, k, hnil, -⟩)
        · cases block_answers_nil.mp hnil
          exact hrest
        · exact absurd (block_answers_nil.mp hnil) (by simp)
  | cons n ns ih =>
      intro m
      rw [List.cons_append, block_answers_cons]
      constructor
      · rintro (⟨k, hnode, hrest⟩ | ⟨reason, k, hnode, rfl⟩)
        · rcases ih.mp hrest with ⟨l, hns, hms⟩ | ⟨reason, l, hns, rfl⟩
          · exact Or.inl ⟨l, block_answers_cons.mpr (Or.inl ⟨k, hnode, hns⟩), hms⟩
          · exact Or.inr ⟨reason, l, block_answers_cons.mpr (Or.inl ⟨k, hnode, hns⟩), rfl⟩
        · exact Or.inr ⟨reason, k, block_answers_cons.mpr (Or.inr ⟨reason, k, hnode, rfl⟩), rfl⟩
      · rintro (⟨l, hcons, hms⟩ | ⟨reason, l, hcons, rfl⟩)
        · rcases block_answers_cons.mp hcons with ⟨k, hnode, hns⟩ | ⟨_, _, _, hfalse⟩
          · exact Or.inl ⟨k, hnode, ih.mpr (Or.inl ⟨l, hns, hms⟩)⟩
          · exact absurd hfalse (by simp)
        · rcases block_answers_cons.mp hcons with ⟨k, hnode, hns⟩ | hnode
          · exact Or.inl ⟨k, hnode, ih.mpr (Or.inr ⟨reason, l, hns, rfl⟩)⟩
          · exact Or.inr hnode

end Eval

end DualStack
