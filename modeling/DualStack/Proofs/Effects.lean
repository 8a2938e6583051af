/-
What the primitive words are made of.

Thirty-two primitives are put together from a dozen base effects: operations on
the data stack, a look at the loop index, a variable stored or loaded, printed
bytes, an act on the world.  `Effect.Basic` is the closure of those under
sequencing, and `Primitive.run_basic` says that every primitive lies in it.  So a
property of effects that the base effects have and that passes through
sequencing holds of every primitive, by one induction and without looking at any
primitive again.

Only one primitive prints.  `Effect.Quiet` is the closure without the printed
bytes and with the acts on the world told one by one, and every other primitive lies
in that (`Primitive.run_quiet`).
-/
import DualStack.Machine.Eval

namespace DualStack

namespace Effect

variable {α β : Type}

/-- The machine an effect leaves behind, whether it succeeds or aborts. -/
def after (e : Effect α) (m : Machine) : Machine :=
  match e m with
  | .ok _ n => n
  | .error _ n => n

/-- Whether an effect succeeds on a machine. -/
def succeeds (e : Effect α) (m : Machine) : Bool :=
  match e m with
  | .ok _ _ => true
  | .error _ _ => false

theorem after_ok {e : Effect α} {m n : Machine} {a : α} (h : e m = .ok a n) : e.after m = n := by
  rw [after, h]

theorem after_error {e : Effect α} {m n : Machine} {reason : Abort} (h : e m = .error reason n) :
    e.after m = n := by
  rw [after, h]

theorem eq_ok_of_succeeds {e : Effect Unit} {m : Machine} (h : e.succeeds m = true) :
    e m = .ok () (e.after m) := by
  unfold succeeds at h
  cases hm : e m with
  | ok _ n => rw [after_ok hm]
  | error reason n =>
      rw [hm] at h
      exact absurd h (by simp)

/-- Why an effect aborts on a machine, if it does. -/
def abort? (e : Effect α) (m : Machine) : Option Abort :=
  match e m with
  | .ok _ _ => none
  | .error reason _ => some reason

theorem eq_error_of_abort? {e : Effect α} {m : Machine} {reason : Abort}
    (h : e.abort? m = some reason) : e m = .error reason (e.after m) := by
  unfold abort? at h
  cases hm : e m with
  | ok _ n =>
      rw [hm] at h
      exact absurd h (by simp)
  | error other n =>
      rw [hm] at h
      cases h
      rw [after_error hm]

/-! ### Sequencing -/

theorem bind_ok {e : Effect α} {f : α → Effect β} {m n : Machine} {a : α} (h : e m = .ok a n) :
    (e >>= f) m = f a n := by
  show EStateM.bind e f m = f a n
  rw [EStateM.bind, h]

theorem bind_error {e : Effect α} {f : α → Effect β} {m n : Machine} {reason : Abort}
    (h : e m = .error reason n) : (e >>= f) m = .error reason n := by
  show EStateM.bind e f m = .error reason n
  rw [EStateM.bind, h]

/-- A sequence succeeds only through a success of its first effect. -/
theorem of_bind_ok {e : Effect α} {f : α → Effect β} {m k : Machine} {b : β}
    (h : (e >>= f) m = .ok b k) : ∃ a n, e m = .ok a n ∧ f a n = .ok b k := by
  cases he : e m with
  | ok a n =>
      rw [bind_ok he] at h
      exact ⟨a, n, rfl, h⟩
  | error reason n =>
      rw [bind_error he] at h
      exact absurd h (by simp)

/-! ### The data stack, with its items in view -/

section Items

variable {m : Machine} {v : Value} {rest : List Value}

theorem pop_eq (h : m.data.items = v :: rest) :
    pop m = .ok v { m with data := ⟨rest, m.data.free + 1⟩ } := by
  unfold pop Stack.pop?
  rw [h]

theorem peek_eq (h : m.data.items = v :: rest) : peek m = .ok v m := by
  unfold peek Stack.peek?
  rw [h]
  rfl

theorem drop_eq (h : m.data.items = v :: rest) :
    onData Stack.drop? m = .ok () { m with data := ⟨rest, m.data.free + 1⟩ } := by
  unfold onData Stack.drop? Stack.pop?
  rw [h]
  rfl

end Items

end Effect

/-- The operations of the data stack that primitives use to change it in place. -/
inductive Stack.Operation {α : Type} : (Stack α → Option (Stack α)) → Prop
  | push (v : α) : Operation (push? v)
  | setTop (v : α) : Operation (setTop? v)
  | dup : Operation dup?
  | drop : Operation drop?
  | swap : Operation swap?
  | copyUnder : Operation over?
  | rot : Operation rot?

namespace World

/-- The acts on a pipe, through whichever of its copies. -/
inductive Through (id : PipeId) : {α : Type} → Act α → Prop
  | write (bytes : List UInt8) : Through id (write id bytes)
  | read (room : Nat) : Through id (read id room)
  | close : Through id (close id)

/-- The acts on the world that primitives make. -/
inductive Operation : {α : Type} → Act α → Prop
  | through {α : Type} {id : PipeId} {act : Act α} (h : Through id act) : Operation act
  | openFile (path : String) : Operation (openFile path)
  | createFile (path : String) : Operation (createFile path)
  | dial (network address : String) : Operation (dial network address)

end World

/-- The effects that are put together from base effects. -/
inductive Effect.Basic : {α : Type} → Effect α → Prop
  | pure {α : Type} (a : α) : Basic (Pure.pure a)
  | bind {α β : Type} {e : Effect α} {f : α → Effect β} (he : Basic e) (hf : ∀ a, Basic (f a)) :
      Basic (e >>= f)
  | onData {change : Stack Value → Option (Stack Value)} (h : Stack.Operation change) :
      Basic (onData change)
  | pop : Basic pop
  | peek : Basic peek
  | peekReturn : Basic peekReturn
  | store (name : String) (v : Value) : Basic (update (·.store name v))
  | load {α : Type} (name : String) {f : Value → Effect α} (hf : ∀ v, Basic (f v)) :
      Basic (do f ((← get).load name))
  | print (bytes : List UInt8) : Basic (print bytes)
  | attempt {α : Type} (act : World.Act α) : Basic (attempt act)

/-- The effects that are put together from base effects and print nothing. -/
inductive Effect.Quiet : {α : Type} → Effect α → Prop
  | pure {α : Type} (a : α) : Quiet (Pure.pure a)
  | bind {α β : Type} {e : Effect α} {f : α → Effect β} (he : Quiet e) (hf : ∀ a, Quiet (f a)) :
      Quiet (e >>= f)
  | onData {change : Stack Value → Option (Stack Value)} (h : Stack.Operation change) :
      Quiet (onData change)
  | pop : Quiet pop
  | peek : Quiet peek
  | peekReturn : Quiet peekReturn
  | store (name : String) (v : Value) : Quiet (update (·.store name v))
  | load {α : Type} (name : String) {f : Value → Effect α} (hf : ∀ v, Quiet (f v)) :
      Quiet (do f ((← get).load name))
  | attempt {α : Type} {act : World.Act α} (h : World.Operation act) : Quiet (attempt act)

theorem Effect.Basic.push (v : Value) : Basic (push v) :=
  .onData (.push v)

namespace Effect.Quiet

theorem basic {α : Type} {e : Effect α} (h : Quiet e) : Basic e := by
  induction h with
  | pure a => exact .pure a
  | bind _ _ ihe ihf => exact .bind ihe ihf
  | onData hop => exact .onData hop
  | pop => exact .pop
  | peek => exact .peek
  | peekReturn => exact .peekReturn
  | store name v => exact .store name v
  | load name _ ih => exact .load name ih
  | attempt _ => exact .attempt _

theorem push (v : Value) : Quiet (push v) :=
  .onData (.push v)

theorem pushAll (vs : List Value) : Quiet (pushAll vs) := by
  induction vs with
  | nil => exact .pure ()
  | cons v vs ih => exact .bind (.push v) fun _ => ih

/-- Push a result if there is one. -/
theorem pushSome (result : Option Value) :
    Quiet (match result with
      | some v => Effect.push v
      | none => Pure.pure ()) := by
  cases result with
  | none => exact .pure ()
  | some v => exact .push v

/-- Act on the world and report how it went. -/
theorem report {α : Type} {act : World.Act α} (h : World.Operation act)
    (results : α → List Value) :
    Quiet (do Effect.report ((← Effect.attempt act).map results)) := by
  refine .bind (.attempt h) fun outcome => ?_
  cases outcome with
  | error fault => exact .bind (.push _) fun _ => .push _
  | ok a => exact .bind (.pushAll (results a)) fun _ => .push _

end Effect.Quiet

namespace Primitive

open Effect

theorem binary_quiet (op : Value → Value → Option Value) : Quiet (binary op) :=
  .bind .pop fun right => .bind .pop fun left => .pushSome (op left right)

theorem storeTop_quiet : Quiet storeTop := by
  refine .bind .pop fun v => .bind .pop fun target => ?_
  cases target with
  | reference name => exact .store name v
  | _ => exact .pure ()

theorem loadTop_quiet : Quiet loadTop := by
  refine .bind .pop fun target => ?_
  cases target with
  | reference name => exact .load name .push
  | _ => exact .pure ()

theorem lengthTop_quiet : Quiet lengthTop := by
  refine .bind .peek fun coll => ?_
  cases coll.size? with
  | none => exact .pure ()
  | some n => exact .push _

theorem insertTop_quiet : Quiet insertTop := by
  refine .bind .pop fun v => .bind .peek fun coll => ?_
  cases coll.insert? v with
  | none => exact .pure ()
  | some grown => exact .onData (.setTop grown)

theorem spreadTop_quiet : Quiet spreadTop := by
  refine .bind .peek fun coll => ?_
  cases coll.elements? with
  | none => exact .pure ()
  | some vs => exact .pushAll vs

theorem pipeFrom_quiet {make : String → World.Act PipeId}
    (hmake : ∀ path, World.Operation (make path)) : Quiet (pipeFrom make) := by
  refine .bind .pop fun path => ?_
  cases path with
  | text path => exact .report (hmake path) _
  | _ => exact .pure ()

theorem dialTop_quiet : Quiet dialTop := by
  refine .bind .pop fun address => .bind .pop fun network => ?_
  cases network with
  | text network =>
      cases address with
      | text address => exact .report (.dial network address) _
      | _ => exact .pure ()
  | _ => exact .pure ()

theorem sendTop_quiet : Quiet sendTop := by
  refine .bind .pop fun v => .bind .peek fun target => ?_
  cases target with
  | pipe id => exact .report (.through (.write (payload v))) _
  | _ => exact .pure ()

theorem receiveTop_quiet : Quiet receiveTop := by
  refine .bind .pop fun limit => ?_
  cases limit with
  | number x =>
      refine .bind .peek fun target => ?_
      cases target with
      | pipe id => exact .report (.through (.read (roomOf x))) _
      | _ => exact .pure ()
  | _ => exact .pure ()

theorem closeTop_quiet : Quiet closeTop := by
  refine .bind .peek fun target => ?_
  cases target with
  | pipe id => exact .bind (.onData .drop) fun _ => .report (.through .close) _
  | _ => exact .pure ()

/-- Every primitive but one prints nothing. -/
theorem run_quiet {p : Primitive} (h : p ≠ print) : Quiet p.run := by
  cases p with
  | plus | minus | times | divide | remainder | less | greater => exact binary_quiet _
  | equal => exact binary_quiet Value.equal
  | dup => exact .onData .dup
  | drop => exact .onData .drop
  | swap => exact .onData .swap
  | copyUnder => exact .onData .copyUnder
  | rot => exact .onData .rot
  | print => exact absurd rfl h
  | lineFeed | carriageReturn | true | false | blob => exact .push _
  | store => exact storeTop_quiet
  | load => exact loadTop_quiet
  | loopIndex => exact .bind .peekReturn .push
  | index => exact .bind .pop fun i => .bind .peek fun coll => .pushSome (coll.index? i)
  | length => exact lengthTop_quiet
  | insert => exact insertTop_quiet
  | spread => exact spreadTop_quiet
  | openFile => exact pipeFrom_quiet .openFile
  | createFile => exact pipeFrom_quiet .createFile
  | dial => exact dialTop_quiet
  | send => exact sendTop_quiet
  | receive => exact receiveTop_quiet
  | close => exact closeTop_quiet

/-- **Every primitive is put together from base effects.** -/
theorem run_basic (p : Primitive) : Basic p.run := by
  by_cases h : p = print
  · rw [h]
    exact .bind .pop fun v => .print _
  · exact (run_quiet h).basic

end Primitive

end DualStack
