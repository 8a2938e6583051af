/-
What evaluation can do to a machine.

A primitive makes the moves of `Machine.Move`.  Evaluation does four things more:
it uses the return stack, puts words into the dictionary, and counts calls in and
out.  `Machine.Step` is the whole list, and `Eval.steps` says that evaluation takes
steps of the list and no others, whether it succeeds, aborts or runs out of fuel.

A word is always defined by a body that stands somewhere in the program or in the
body of another word.  So the steps come with a property of nodes: if the program
and the dictionary are made of nodes that have it, then so is every body that is
ever defined.  Where that is of no interest the property is `True`.
-/
import DualStack.Proofs.Grammar
import DualStack.Proofs.Moves

namespace DualStack

namespace Machine

variable {P : Node → Prop} {m n k : Machine}

/-- One thing evaluation can do to a machine, where only nodes with a property ever become
part of a definition. -/
inductive Step (P : Node → Prop) (m : Machine) : Machine → Prop
  /-- What a primitive can do. -/
  | move {n : Machine} (h : Move m n) : Step P m n
  /-- The return stack changes within its capacity. -/
  | returns (s : Stack Value) (hcap : s.capacity = m.returns.capacity) :
      Step P m { m with returns := s }
  /-- A word gets a body. -/
  | define (name : String) (body : List Node) (hbody : ∀ d ∈ Node.closing body, P d) :
      Step P m (m.define name body)
  /-- A call is counted in, if calls may nest that deep. -/
  | enter (hroom : m.depth < m.callLimit) : Step P m { m with depth := m.depth + 1 }
  /-- A call is counted out. -/
  | leave : Step P m { m with depth := m.depth - 1 }

/-- Any number of steps, one after the other. -/
abbrev Steps (P : Node → Prop) : Machine → Machine → Prop :=
  Relation.ReflTransGen (Step P)

/-- Every word stands for a body made of nodes that have the property. -/
def Words (P : Node → Prop) (m : Machine) : Prop :=
  ∀ name body, m.words.find? name = some body → ∀ d ∈ Node.closing body, P d

theorem Moves.steps (h : Moves m n) : Steps P m n := by
  induction h with
  | refl => exact .refl
  | tail _ hmove ih => exact ih.tail (.move hmove)

/-- A step keeps the capacities of both stacks and how the sink answers a flush. -/
theorem Step.keeps (h : Step P m n) :
    n.data.capacity = m.data.capacity ∧ n.returns.capacity = m.returns.capacity ∧
      n.sink.stuck = m.sink.stuck := by
  cases h with
  | move h =>
      cases h with
      | data s hcap => exact ⟨hcap, rfl, rfl⟩
      | store | sink | world => exact ⟨rfl, rfl, rfl⟩
  | returns s hcap => exact ⟨rfl, hcap, rfl⟩
  | define | enter | leave => exact ⟨rfl, rfl, rfl⟩

theorem Steps.keeps (h : Steps P m n) :
    n.data.capacity = m.data.capacity ∧ n.returns.capacity = m.returns.capacity ∧
      n.sink.stuck = m.sink.stuck := by
  induction h with
  | refl => exact ⟨rfl, rfl, rfl⟩
  | tail _ hstep ih =>
      obtain ⟨hdata, hreturns, hstuck⟩ := hstep.keeps
      exact ⟨hdata.trans ih.1, hreturns.trans ih.2.1, hstuck.trans ih.2.2⟩

theorem Step.words (h : Step P m n) (hm : m.Words P) : n.Words P := by
  cases h with
  | move h =>
      cases h with
      | data | store | sink | world => exact hm
  | returns | enter | leave => exact hm
  | define name body hbody =>
      intro other found hfound
      have hlookup : (m.words.insert name body).find? other = some found := hfound
      rw [Dictionary.find?_insert] at hlookup
      by_cases hname : name = other
      · rw [if_pos hname] at hlookup
        obtain rfl : body = found := by simpa using hlookup
        exact hbody
      · rw [if_neg hname] at hlookup
        exact hm other found hlookup

/-- The dictionary stays made of nodes with the property. -/
theorem Steps.words (h : Steps P m n) (hm : m.Words P) : n.Words P := by
  induction h with
  | refl => exact hm
  | tail _ hstep ih => exact hstep.words ih

/-- From a machine whose dictionary has the property, steps lead to the other one. -/
def Leads (P : Node → Prop) (m n : Machine) : Prop :=
  m.Words P → Steps P m n

theorem Leads.trans (h : Leads P m n) (h' : Leads P n k) : Leads P m k := by
  intro hm
  exact (h hm).trans (h' ((h hm).words hm))

/-- A defined word stands for the body its entry in the dictionary gives. -/
theorem find?_of_word? {name : String} {body : List Node}
    (h : m.word? name = some (.defined body)) : m.words.find? name = some body := by
  unfold word? at h
  cases hfind : m.words.find? name with
  | some found =>
      rw [hfind] at h
      cases h
      rfl
  | none =>
      rw [hfind] at h
      cases hprimitive : Primitive.ofName? name with
      | none =>
          rw [hprimitive] at h
          exact absurd h (by simp)
      | some p =>
          rw [hprimitive] at h
          exact absurd h (by simp)

theorem words_true (m : Machine) : m.Words fun _ => True := by
  intro name body _ d _
  trivial

end Machine

namespace Effect

open Machine (Leads Steps)

variable {α β : Type} {P : Node → Prop}

theorem leads_bind {e : Effect α} {f : α → Effect β} (he : Within (Leads P) e)
    (hf : ∀ a, Within (Leads P) (f a)) : Within (Leads P) (e >>= f) :=
  Within.bind (R := Leads P) Leads.trans he hf

theorem leads_basic {e : Effect α} (h : Basic e) : Within (Leads P) e :=
  fun m _ => (h.moves m).steps

theorem leads_onReturns {change : Stack Value → Option (Stack Value)}
    (h : Stack.Operation change) : Within (Leads P) (onReturns change) := by
  intro m _
  unfold after onReturns
  cases hm : change m.returns with
  | none => exact .refl
  | some s => exact .single (.returns s (h.capacity hm))

theorem leads_popReturn : Within (Leads P) popReturn := by
  intro m _
  unfold after popReturn
  cases hm : m.returns.pop? with
  | none => exact .refl
  | some popped =>
      obtain ⟨v, s⟩ := popped
      exact .single (.returns s (Stack.capacity_pop? hm))

theorem leads_define {name : String} {body : List Node} (h : ∀ d ∈ Node.closing body, P d) :
    Within (Leads P) (update (·.define name body)) :=
  fun _ _ => .single (.define name body h)

theorem leads_enterCall : Within (Leads P) Eval.enterCall := by
  intro m _
  unfold after Eval.enterCall
  by_cases hdeep : m.callLimit ≤ m.depth
  · simp only [if_pos hdeep]
    exact .refl
  · simp only [if_neg hdeep]
    exact .single (.enter (Nat.lt_of_not_le hdeep))

theorem leads_leaveCall {e : Effect Unit} (he : Within (Leads P) e) :
    Within (Leads P) (Eval.leaveCall e) := by
  intro m hm
  have hbody := he m hm
  unfold after Eval.leaveCall
  cases hrun : e m with
  | ok _ n =>
      rw [after_ok hrun] at hbody
      exact hbody.tail .leave
  | error reason n =>
      rw [after_error hrun] at hbody
      exact hbody.tail .leave

end Effect

namespace Eval

open Effect Machine

variable {P : Node → Prop}

/-- Run what a name stands for. -/
def runWord (test : Effect Bool) (fuel : Nat) : Option Word → Effect Unit
  | none => pure ()
  | some (.primitive p) => p.run
  | some (.defined body) => do
    enterCall
    leaveCall (block test fuel body)

/-- A name is looked up on the machine it is met on. -/
theorem call_eq (test : Effect Bool) (fuel : Nat) (name : String) (m : Machine) :
    call test (fuel + 1) name m = runWord test fuel (m.word? name) m := by
  rw [call]
  show (match m.word? name with
    | none => pure ()
    | some (.primitive p) => p.run
    | some (.defined body) => do
      enterCall
      leaveCall (block test fuel body) : Effect Unit) m = _
  rcases m.word? name with _ | ⟨body⟩ | ⟨p⟩ <;> rfl

theorem lenient_leads : Within (Leads P) lenient := by
  intro m _
  unfold after lenient
  cases hm : m.data.pop? with
  | none => exact .refl
  | some popped =>
      obtain ⟨v, s⟩ := popped
      exact .single (.move (.data s (Stack.capacity_pop? hm)))

theorem strict_basic : Basic strict :=
  .bind .pop fun v => .pure v.isTruthy

theorem enterLoop_leads : Within (Leads P) enterLoop := by
  refine leads_bind (leads_basic (.onData .swap)) fun _ => ?_
  refine leads_bind (leads_basic .pop) fun limit => ?_
  refine leads_bind (leads_basic .pop) fun start => ?_
  exact leads_bind (leads_onReturns (.push limit)) fun _ => leads_onReturns (.push start)

theorem nextIndex_leads : Within (Leads P) nextIndex := by
  refine leads_bind leads_popReturn fun index => ?_
  refine leads_bind (leads_basic .peekReturn) fun limit => leads_basic ?_
  cases index with
  | number i =>
      cases limit with
      | number l => exact .pure _
      | _ => exact .pure _
  | _ => exact .pure _

/-- **Evaluation takes steps of the list and no others.**  The program may be any whose nodes
have the property; a call runs a body of the dictionary, which has it as well. -/
theorem steps (hreference : ∀ name, P (.reference name)) {test : Effect Bool}
    (htest : Within (Leads P) test) (fuel : Nat) :
    (∀ n, n.Every P → Within (Leads P) (node test fuel n)) ∧
    (∀ ns, (∀ d ∈ Node.closing ns, P d) → Within (Leads P) (block test fuel ns)) ∧
    (∀ name, Within (Leads P) (call test fuel name)) ∧
    (∀ body, (∀ d ∈ Node.closing body, P d) → Within (Leads P) (iterate test fuel body)) := by
  induction fuel with
  | zero =>
      have hstuck : Within (Leads P) (throw .outOfFuel : Effect Unit) := fun _ _ => .refl
      exact ⟨fun _ _ => hstuck, fun _ _ => hstuck, fun _ => hstuck, fun _ _ => hstuck⟩
  | succ fuel ih =>
      obtain ⟨hnode, hblock, hcall, hloop⟩ := ih
      refine ⟨?_, ?_, ?_, ?_⟩
      · intro n hn
        have hinside := (Node.every_iff.mp hn).1
        cases n with
        | word name => exact hcall name
        | reference | number | text | collection => exact leads_basic (.push _)
        | declaration name =>
            have hbody : ∀ d ∈ Node.closing [.reference name], P d := by
              simpa [Node.closing, Node.inside] using hreference name
            exact leads_bind (leads_define hbody) fun _ => leads_basic (.push _)
        | definition name body => exact leads_define hinside
        | conditional thenBody elseBody =>
            obtain ⟨hthen, helse⟩ := List.forall_mem_append.mp hinside
            refine leads_bind htest fun taken => ?_
            cases taken with
            | true => exact hblock thenBody hthen
            | false => exact hblock elseBody helse
        | loop body => exact leads_bind enterLoop_leads fun _ => hloop body hinside
      · intro ns hns
        cases ns with
        | nil => exact leads_basic (.pure ())
        | cons n ns =>
            obtain ⟨hn, hrest⟩ := Node.forall_closing_cons.mp hns
            exact leads_bind (hnode n hn) fun _ => hblock ns hrest
      · intro name m hm
        show Steps P m (after (call test (fuel + 1) name) m)
        rcases hword : m.word? name with _ | ⟨body⟩ | ⟨p⟩
        · rw [after, call_eq, hword]
          exact .refl
        · have hbody := hblock body (hm name body (find?_of_word? hword))
          rw [after, call_eq, hword]
          exact leads_bind leads_enterCall (fun _ => leads_leaveCall hbody) m hm
        · rw [after, call_eq, hword]
          exact leads_basic p.run_basic m hm
      · intro body hbody
        refine leads_bind nextIndex_leads fun next => ?_
        cases next with
        | none => exact leads_onReturns .drop
        | some i =>
            refine leads_bind (leads_onReturns (.push _)) fun _ => ?_
            refine leads_bind (hblock body hbody) fun _ => ?_
            refine leads_bind (leads_onReturns .drop) fun _ => ?_
            exact leads_bind (leads_onReturns (.push _)) fun _ => hloop body hbody

/-- Whatever the program, a block takes steps. -/
theorem block_steps {test : Effect Bool} (htest : Within (Leads fun _ => True) test) (fuel : Nat)
    (nodes : List Node) (m : Machine) :
    Steps (fun _ => True) m ((block test fuel nodes).after m) :=
  (steps (fun _ => trivial) htest fuel).2.1 nodes (fun _ _ => trivial) m m.words_true

end Eval

end DualStack
