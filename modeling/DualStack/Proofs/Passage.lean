/-
Every machine a run passes through.

Evaluation is a function from machines to outcomes, and an outcome shows the last
machine only.  `Effect.Passes` tells what lies between: from a machine, an effect
passes through a list of points, one behind every base effect it is made of, in
the order in which they come about.  A push of five values has five points, and a
call has those of its body.  A point also says how many calls of defined words are
in progress there, counted by the calls it lies in and not by the machine.

Every run of the evaluator passes through some list (`Eval.orderly`), so what is
shown of all lists is shown of every run.  Two things are shown here once for all
later use: from point to point a machine takes a single `Machine.Step`, down to
the machine the effect leaves behind (`Effect.Passes.trail`), and no base effect
but printing looks at the sink or at the call depth (`Effect.Atom.blind`).  A third is
shown of the lists that runs pass through: from point to point at most one operation
happens to the world.
-/
import DualStack.Proofs.Steps
import DualStack.Session

namespace DualStack

/-- A machine in the middle of a run. -/
structure Point where
  /-- How many calls of defined words are in progress. -/
  calls : Nat
  machine : Machine

/-- The point, if the run it belongs to is itself part of a call. -/
def Point.deeper (p : Point) : Point :=
  { p with calls := p.calls + 1 }

/-- The machines at some points. -/
def Point.machines (l : List Point) : List Machine :=
  l.map Point.machine

namespace Point

@[simp] theorem machines_nil : machines [] = [] := rfl

@[simp] theorem machines_cons (p : Point) (l : List Point) :
    machines (p :: l) = p.machine :: machines l := rfl

@[simp] theorem machines_append (l l' : List Point) :
    machines (l ++ l') = machines l ++ machines l' :=
  List.map_append

@[simp] theorem machines_deeper (l : List Point) : machines (l.map deeper) = machines l := by
  simp [machines, deeper]

end Point

namespace Effect

/-- The base effects that do not print: each is over in one step. -/
inductive Atom : {α : Type} → Effect α → Prop
  | onData {change : Stack Value → Option (Stack Value)} (h : Stack.Operation change) :
      Atom (onData change)
  | onReturns {change : Stack Value → Option (Stack Value)} (h : Stack.Operation change) :
      Atom (onReturns change)
  | pop : Atom pop
  | popReturn : Atom popReturn
  | peek : Atom peek
  | peekReturn : Atom peekReturn
  | store (name : String) (v : Value) : Atom (update (·.store name v))
  | define (name : String) (body : List Node) : Atom (update (·.define name body))
  | attempt {α : Type} (act : World.Act α) : Atom (attempt act)
  | test : Atom Eval.lenient

/-- A call of a defined word with the given body. -/
def invocation (body : Effect Unit) : Effect Unit := do
  Eval.enterCall
  Eval.leaveCall body

/-- From a machine, the effect passes through these points, one behind every base effect. -/
inductive Passes : {α : Type} → Effect α → Machine → List Point → Prop
  | pure {α : Type} {m : Machine} (a : α) : Passes (Pure.pure a) m []
  | outOfFuel {m : Machine} : Passes (throw .outOfFuel : Effect Unit) m []
  | atom {α : Type} {e : Effect α} {m : Machine} (h : Atom e) : Passes e m [⟨0, e.after m⟩]
  /-- A sequence whose first effect succeeds. -/
  | next {α β : Type} {e : Effect α} {f : α → Effect β} {m n : Machine} {a : α} {l l' : List Point}
      (he : Passes e m l) (hok : e m = .ok a n) (hf : Passes (f a) n l') :
      Passes (e >>= f) m (l ++ l')
  /-- A sequence whose first effect aborts. -/
  | stop {α β : Type} {e : Effect α} {f : α → Effect β} {m n : Machine} {reason : Abort}
      {l : List Point} (he : Passes e m l) (herror : e m = .error reason n) : Passes (e >>= f) m l
  | load {α : Type} {name : String} {f : Value → Effect α} {m : Machine} {l : List Point}
      (h : Passes (f (m.load name)) m l) : Passes (do f ((← get).load name)) m l
  | word {α : Type} {name : String} {f : Option Word → Effect α} {m : Machine} {l : List Point}
      (h : Passes (f (m.word? name)) m l) : Passes (do f ((← get).word? name)) m l
  /-- Printing pops a value, and then its text goes to the sink. -/
  | print {m n : Machine} {v : Value} (hpop : Effect.pop m = .ok v n) :
      Passes Primitive.printTop m [⟨0, n⟩, ⟨0, (Effect.print (Text.bytes v.display)).after n⟩]
  /-- A call is counted in, runs its body, and is counted out. -/
  | call {body : Effect Unit} {m : Machine} {l : List Point} (hroom : m.depth < m.callLimit)
      (hbody : Passes body { m with depth := m.depth + 1 } l) :
      Passes (invocation body) m (⟨1, { m with depth := m.depth + 1 }⟩ ::
        (l.map Point.deeper ++ [⟨0, (invocation body).after m⟩]))
  | refuse {body : Effect Unit} {m : Machine} (hfull : m.callLimit ≤ m.depth) :
      Passes (invocation body) m []

/-! ### Calls -/

section Calls

variable {body : Effect Unit} {m : Machine}

theorem invocation_refused (hfull : m.callLimit ≤ m.depth) :
    invocation body m = .error .stack m := by
  have henter : Eval.enterCall m = .error .stack m := if_pos hfull
  exact bind_error henter

theorem invocation_eq (hroom : m.depth < m.callLimit) :
    invocation body m = Eval.leaveCall body { m with depth := m.depth + 1 } := by
  have henter : Eval.enterCall m = .ok () { m with depth := m.depth + 1 } :=
    if_neg (Nat.not_le_of_lt hroom)
  exact bind_ok henter

/-- A call leaves the machine its body left, counted out. -/
theorem invocation_after (hroom : m.depth < m.callLimit) :
    (invocation body).after m =
      { body.after { m with depth := m.depth + 1 } with
        depth := (body.after { m with depth := m.depth + 1 }).depth - 1 } := by
  unfold after
  rw [invocation_eq hroom, Eval.leaveCall]
  cases body { m with depth := m.depth + 1 } with
  | ok _ n => rfl
  | error reason n => rfl

end Calls

theorem printTop_after {m n : Machine} {v : Value} (hpop : Effect.pop m = .ok v n) :
    Primitive.printTop.after m = (Effect.print (Text.bytes v.display)).after n := by
  rw [after, Primitive.printTop, bind_ok hpop]
  rfl

/-! ### What a base effect sees and does -/

/-- The outcome with another machine in it. -/
def onMachine {α : Type} (f : Machine → Machine) :
    EStateM.Result Abort Machine α → EStateM.Result Abort Machine α
  | .ok a m => .ok a (f m)
  | .error reason m => .error reason (f m)

theorem after_onMachine {α : Type} {e : Effect α} {m m' : Machine} {f : Machine → Machine}
    (h : e m' = onMachine f (e m)) : e.after m' = f (e.after m) := by
  unfold after
  rw [h]
  cases e m with
  | ok a n => rfl
  | error reason n => rfl

namespace Atom

variable {α : Type} {e : Effect α}

/-- **A base effect looks neither at the sink nor at the depth, and leaves both alone.** -/
theorem blind (h : Atom e) (m : Machine) (s : Sink) (d : Nat) :
    e { m with sink := s, depth := d } =
      onMachine (fun n => { n with sink := s, depth := d }) (e m) := by
  cases h with
  | @onData change _ =>
      simp only [Effect.onData]
      cases change m.data <;> rfl
  | @onReturns change _ =>
      simp only [Effect.onReturns]
      cases change m.returns <;> rfl
  | pop =>
      simp only [Effect.pop]
      cases m.data.pop? <;> rfl
  | popReturn =>
      simp only [Effect.popReturn]
      cases m.returns.pop? <;> rfl
  | peek =>
      simp only [Effect.peek]
      cases m.data.peek? <;> rfl
  | peekReturn =>
      simp only [Effect.peekReturn]
      cases m.returns.peek? <;> rfl
  | store name v => rfl
  | define name body => rfl
  | attempt act =>
      simp only [Effect.attempt]
      cases act m.world <;> rfl
  | test =>
      simp only [Eval.lenient]
      cases m.data.pop? <;> rfl

theorem after_sink_depth (h : Atom e) (m : Machine) :
    (e.after m).sink = m.sink ∧ (e.after m).depth = m.depth := by
  have hsame : e.after m = { e.after m with sink := m.sink, depth := m.depth } :=
    after_onMachine (h.blind m m.sink m.depth)
  constructor
  · rw [hsame]
  · rw [hsame]

/-- A base effect takes a single step. -/
theorem step (h : Atom e) (m : Machine) : Machine.Step (fun _ => True) m (e.after m) := by
  have hstay : Machine.Step (fun _ => True) m m := .move (.data m.data rfl)
  cases h with
  | @onData change hop =>
      unfold after Effect.onData
      cases hm : change m.data with
      | none => exact hstay
      | some s => exact .move (.data s (hop.capacity hm))
  | @onReturns change hop =>
      unfold after Effect.onReturns
      cases hm : change m.returns with
      | none => exact hstay
      | some s => exact .returns s (hop.capacity hm)
  | pop =>
      unfold after Effect.pop
      cases hm : m.data.pop? with
      | none => exact hstay
      | some popped => exact .move (.data popped.2 (Stack.capacity_pop? hm))
  | popReturn =>
      unfold after Effect.popReturn
      cases hm : m.returns.pop? with
      | none => exact hstay
      | some popped => exact .returns popped.2 (Stack.capacity_pop? hm)
  | peek =>
      unfold after Effect.peek
      cases m.data.peek? <;> exact hstay
  | peekReturn =>
      unfold after Effect.peekReturn
      cases m.returns.peek? <;> exact hstay
  | store name v => exact .move (.store name v)
  | define name body => exact .define name body fun _ _ => trivial
  | attempt act =>
      unfold after Effect.attempt
      cases act m.world with
      | ok a w => exact .move (.world w)
      | error fault w => exact .move (.world w)
  | test =>
      unfold after Eval.lenient
      cases hm : m.data.pop? with
      | none => exact hstay
      | some popped => exact .move (.data popped.2 (Stack.capacity_pop? hm))

end Atom

end Effect

/-! ### From point to point -/

/-- From the first machine the list leads to the last one, each machine related to the next. -/
inductive Machine.Trail (R : Machine → Machine → Prop) : Machine → List Machine → Machine → Prop
  | nil {m : Machine} : Trail R m [] m
  | cons {m k n : Machine} {l : List Machine} (hstep : R m k) (hrest : Trail R k l n) :
      Trail R m (k :: l) n

namespace Machine.Trail

variable {R : Machine → Machine → Prop} {m k n : Machine} {l l' : List Machine}

theorem single (h : R m n) : Trail R m [n] n :=
  .cons h .nil

theorem append (h : Trail R m l k) (h' : Trail R k l' n) : Trail R m (l ++ l') n := by
  induction h with
  | nil => exact h'
  | cons hstep _ ih => exact .cons hstep (ih h')

theorem mono {R' : Machine → Machine → Prop} (himp : ∀ {m n}, R m n → R' m n)
    (h : Trail R m l n) : Trail R' m l n := by
  induction h with
  | nil => exact .nil
  | cons hstep _ ih => exact .cons (himp hstep) ih

/-- The last machine stands at the end of the list, or is the first if the list is empty. -/
theorem ends (h : Trail R m l n) : ∃ front, m :: l = front ++ [n] := by
  induction h with
  | nil => exact ⟨[], rfl⟩
  | @cons m _ _ _ _ _ ih =>
      obtain ⟨front, hfront⟩ := ih
      exact ⟨m :: front, by rw [hfront, List.cons_append]⟩

theorem isChain (h : Trail R m l n) : List.IsChain R (m :: l) := by
  induction h with
  | nil => exact .singleton _
  | cons hstep _ ih => exact .cons_cons hstep ih

/-- What every step preserves holds all the way. -/
theorem invariant {P : Machine → Prop} (hstep : ∀ {m n}, R m n → P m → P n)
    (h : Trail R m l n) (hm : P m) : ∀ k ∈ m :: l, P k := by
  induction h with
  | nil => simpa using hm
  | cons hfirst _ ih =>
      intro k hk
      rcases List.mem_cons.mp hk with rfl | hk
      · exact hm
      · exact ih (hstep hfirst hm) k hk

end Machine.Trail

namespace Effect

open Machine

/-- **An effect takes single steps from point to point, down to the machine it leaves.** -/
theorem Passes.trail {α : Type} {e : Effect α} {m : Machine} {l : List Point}
    (h : Passes e m l) : Trail (Step fun _ => True) m (Point.machines l) (e.after m) := by
  induction h with
  | pure a => exact .nil
  | outOfFuel => exact .nil
  | atom ha => exact .single (ha.step _)
  | next _ hok _ ihe ihf =>
      rw [after_ok hok] at ihe
      rw [Point.machines_append, after, bind_ok hok]
      exact ihe.append ihf
  | stop _ herror ihe =>
      rw [after_error herror] at ihe
      rw [after, bind_error herror]
      exact ihe
  | load _ ih => exact ih
  | word _ ih => exact ih
  | @print m n v hpop =>
      have hfirst := Atom.pop.step m
      rw [after_ok hpop] at hfirst
      rw [printTop_after hpop]
      refine .cons hfirst (.single ?_)
      unfold after Effect.print Sink.write
      cases n.sink.room with
      | none => exact .move (.sink _)
      | some room =>
          by_cases hfits : (Text.bytes v.display).length ≤ room
          · simp only [if_pos hfits]
            exact .move (.sink _)
          · simp only [if_neg hfits]
            exact .move (.sink _)
  | @call body m l hroom _ ih =>
      rw [Point.machines_cons, Point.machines_append, Point.machines_deeper]
      refine .cons (.enter hroom) (ih.append (.single ?_))
      rw [invocation_after hroom]
      exact .leave
  | refuse hfull =>
      rw [after, invocation_refused hfull]
      exact .nil

end Effect

/-! ### Every run passes through some points -/

/-- The world an act leaves behind, whether it succeeds or fails. -/
def World.Act.after {α : Type} (act : World.Act α) (w : World) : World :=
  match act w with
  | .ok _ w => w
  | .error _ w => w

/-- At most one operation happens to the world. -/
inductive World.Turn (w : World) : World → Prop
  | stay : Turn w w
  | operation {α : Type} {act : World.Act α} (h : World.Operation act) : Turn w (act.after w)

/-- From one machine to the other at most one operation happens to the world. -/
def Machine.Turn (m n : Machine) : Prop :=
  World.Turn m.world n.world

theorem Machine.Turn.of_eq {m n : Machine} (h : n.world = m.world) : Turn m n := by
  rw [Turn, h]
  exact .stay

namespace Effect

open Machine

variable {α β : Type}

/-- From every machine the effect passes through some points. -/
def Traced (e : Effect α) : Prop :=
  ∀ m, ∃ l, Passes e m l

/-- From every machine the effect passes through some points, with at most one operation on the
world from each to the next. -/
def Orderly (e : Effect α) : Prop :=
  ∀ m, ∃ l, Passes e m l ∧ Trail Turn m (Point.machines l) (e.after m)

theorem world_onData (change : Stack Value → Option (Stack Value)) (m : Machine) :
    ((onData change).after m).world = m.world := by
  unfold after onData
  cases change m.data <;> rfl

theorem world_onReturns (change : Stack Value → Option (Stack Value)) (m : Machine) :
    ((onReturns change).after m).world = m.world := by
  unfold after onReturns
  cases change m.returns <;> rfl

theorem world_pop (m : Machine) : (pop.after m).world = m.world := by
  unfold after pop
  cases m.data.pop? <;> rfl

namespace Orderly

theorem traced {e : Effect α} (h : Orderly e) : Traced e := by
  intro m
  obtain ⟨l, hl, -⟩ := h m
  exact ⟨l, hl⟩

theorem pure (a : α) : Orderly (Pure.pure a) :=
  fun _ => ⟨[], .pure a, .nil⟩

theorem bind {e : Effect α} {f : α → Effect β} (he : Orderly e) (hf : ∀ a, Orderly (f a)) :
    Orderly (e >>= f) := by
  intro m
  obtain ⟨l, hl, htrail⟩ := he m
  cases hm : e m with
  | ok a n =>
      obtain ⟨l', hl', htrail'⟩ := hf a n
      refine ⟨l ++ l', .next hl hm hl', ?_⟩
      rw [after_ok hm] at htrail
      rw [Point.machines_append, after, bind_ok hm]
      exact htrail.append htrail'
  | error reason n =>
      refine ⟨l, .stop hl hm, ?_⟩
      rw [after_error hm] at htrail
      rw [after, bind_error hm]
      exact htrail

/-- A base effect that leaves the world alone. -/
theorem inner {e : Effect α} (h : Atom e) (hworld : ∀ m, (e.after m).world = m.world) :
    Orderly e :=
  fun m => ⟨_, .atom h, .single (.of_eq (hworld m))⟩

theorem onData {change : Stack Value → Option (Stack Value)} (h : Stack.Operation change) :
    Orderly (Effect.onData change) :=
  inner (.onData h) (world_onData change)

theorem push (v : Value) : Orderly (Effect.push v) :=
  onData (.push v)

theorem onReturns {change : Stack Value → Option (Stack Value)} (h : Stack.Operation change) :
    Orderly (Effect.onReturns change) :=
  inner (.onReturns h) (world_onReturns change)

theorem pop : Orderly Effect.pop :=
  inner .pop world_pop

theorem popReturn : Orderly Effect.popReturn := by
  refine inner .popReturn fun m => ?_
  unfold after Effect.popReturn
  cases m.returns.pop? <;> rfl

theorem peek : Orderly Effect.peek := by
  refine inner .peek fun m => ?_
  unfold after Effect.peek
  cases m.data.peek? <;> rfl

theorem peekReturn : Orderly Effect.peekReturn := by
  refine inner .peekReturn fun m => ?_
  unfold after Effect.peekReturn
  cases m.returns.peek? <;> rfl

theorem define (name : String) (body : List Node) : Orderly (update (·.define name body)) :=
  inner (.define name body) fun _ => rfl

theorem test : Orderly Eval.lenient := by
  refine inner .test fun m => ?_
  unfold after Eval.lenient
  cases m.data.pop? <;> rfl

theorem attempt {act : World.Act α} (h : World.Operation act) : Orderly (Effect.attempt act) := by
  intro m
  refine ⟨_, .atom (.attempt act), .single ?_⟩
  have hworld : ((Effect.attempt act).after m).world = act.after m.world := by
    unfold after Effect.attempt World.Act.after
    cases act m.world <;> rfl
  rw [Turn, hworld]
  exact .operation h

theorem quiet {e : Effect α} (h : Quiet e) : Orderly e := by
  induction h with
  | pure a => exact .pure a
  | bind _ _ ihe ihf => exact ihe.bind ihf
  | onData hop => exact .onData hop
  | pop => exact .pop
  | peek => exact .peek
  | peekReturn => exact .peekReturn
  | store name v => exact .inner (.store name v) fun _ => rfl
  | load name _ ih =>
      intro m
      obtain ⟨l, hl, htrail⟩ := ih (m.load name) m
      exact ⟨l, .load hl, htrail⟩
  | attempt hop => exact .attempt hop

theorem printTop : Orderly Primitive.printTop := by
  intro m
  have hpopped := world_pop m
  cases hm : Effect.pop m with
  | ok v n =>
      rw [after_ok hm] at hpopped
      refine ⟨_, .print hm, ?_⟩
      rw [printTop_after hm]
      refine .cons (.of_eq hpopped) (.single (.of_eq ?_))
      unfold after Effect.print
      cases Sink.write (Text.bytes v.display) n.sink <;> rfl
  | error reason n =>
      have hafter : Primitive.printTop.after m = n := after_error (bind_error hm)
      rw [after_error hm] at hpopped
      refine ⟨_, .stop (.atom .pop) hm, ?_⟩
      rw [hafter, after_error hm]
      exact .single (.of_eq hpopped)

theorem primitive (p : Primitive) : Orderly p.run := by
  by_cases h : p = .print
  · rw [h]
    exact printTop
  · exact quiet (Primitive.run_quiet h)

theorem invocation {body : Effect Unit} (h : Orderly body) : Orderly (invocation body) := by
  intro m
  by_cases hfull : m.callLimit ≤ m.depth
  · refine ⟨[], .refuse hfull, ?_⟩
    rw [after, invocation_refused hfull]
    exact .nil
  · have hroom := Nat.lt_of_not_le hfull
    obtain ⟨l, hl, htrail⟩ := h { m with depth := m.depth + 1 }
    refine ⟨_, .call hroom hl, ?_⟩
    rw [Point.machines_cons, Point.machines_append, Point.machines_deeper]
    refine .cons (.of_eq rfl) (htrail.append (.single (.of_eq ?_)))
    rw [invocation_after hroom]

end Orderly

end Effect

namespace Eval

open Effect

theorem enterLoop_orderly : Orderly enterLoop := by
  refine .bind (.onData .swap) fun _ => ?_
  refine .bind .pop fun limit => ?_
  refine .bind .pop fun start => ?_
  exact .bind (.onReturns (.push limit)) fun _ => .onReturns (.push start)

theorem nextIndex_orderly : Orderly nextIndex := by
  refine .bind .popReturn fun index => .bind .peekReturn fun limit => ?_
  cases index with
  | number i =>
      cases limit with
      | number l => exact .pure _
      | _ => exact .pure _
  | _ => exact .pure _

theorem runWord_orderly {fuel : Nat} (hblock : ∀ ns, Orderly (block lenient fuel ns)) :
    ∀ word : Option Word, Orderly (runWord lenient fuel word)
  | none => .pure ()
  | some (.primitive p) => .primitive p
  | some (.defined body) => .invocation (hblock body)

/-- Running a name is looking it up and running what it stands for. -/
theorem call_eq_lookup (test : Effect Bool) (fuel : Nat) (name : String) :
    call test (fuel + 1) name = (do runWord test fuel ((← get).word? name)) := by
  funext m
  exact call_eq test fuel name m

/-- **Whatever is evaluated, from every machine it passes through some points**, and one by one
the operations on the world happen between them. -/
theorem orderly (fuel : Nat) :
    (∀ n, Orderly (node lenient fuel n)) ∧
    (∀ ns, Orderly (block lenient fuel ns)) ∧
    (∀ name, Orderly (call lenient fuel name)) ∧
    (∀ body, Orderly (iterate lenient fuel body)) := by
  induction fuel with
  | zero =>
      have hstuck : Orderly (throw .outOfFuel : Effect Unit) := fun _ => ⟨[], .outOfFuel, .nil⟩
      exact ⟨fun _ => hstuck, fun _ => hstuck, fun _ => hstuck, fun _ => hstuck⟩
  | succ fuel ih =>
      obtain ⟨hnode, hblock, hcall, hloop⟩ := ih
      refine ⟨?_, ?_, ?_, ?_⟩
      · intro n
        cases n with
        | word name => exact hcall name
        | reference | number | text | collection => exact .push _
        | declaration name => exact .bind (.define _ _) fun _ => .push _
        | definition name body => exact .define name body
        | conditional thenBody elseBody =>
            refine .bind .test fun taken => ?_
            cases taken with
            | true => exact hblock thenBody
            | false => exact hblock elseBody
        | loop body => exact .bind enterLoop_orderly fun _ => hloop body
      · intro ns
        cases ns with
        | nil => exact .pure ()
        | cons n ns => exact .bind (hnode n) fun _ => hblock ns
      · intro name m
        obtain ⟨l, hl, htrail⟩ := runWord_orderly hblock (m.word? name) m
        rw [call_eq_lookup]
        exact ⟨l, .word hl, htrail⟩
      · intro body
        refine .bind nextIndex_orderly fun next => ?_
        cases next with
        | none => exact .onReturns .drop
        | some i =>
            refine .bind (.onReturns (.push _)) fun _ => ?_
            refine .bind (hblock body) fun _ => ?_
            refine .bind (.onReturns .drop) fun _ => ?_
            exact .bind (.onReturns (.push _)) fun _ => hloop body

theorem block_orderly (fuel : Nat) (nodes : List Node) : Orderly (block lenient fuel nodes) :=
  (orderly fuel).2.1 nodes

theorem block_traced (fuel : Nat) (nodes : List Node) : Traced (block lenient fuel nodes) :=
  (block_orderly fuel nodes).traced

end Eval

end DualStack
