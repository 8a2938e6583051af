/-
Programs without loops come to an end.

Words may call each other and themselves, and give each other new meanings while
they run, so nothing gets smaller from a call to the body it runs.  What gets
smaller is the room for further calls: `callLimit` bounds how deep they nest, and a
body runs one level deeper than its caller.  Within a level the program text gets
smaller.

So the proof is an induction on the number of levels left, and on each level one on
the text (`node_ends`, `block_ends`), which takes for granted that calls end.  Both
need that no loop ever turns up.  Evaluation defines a word only by a body that
stands in the text or in another word, so a dictionary without loops stays one.
-/
import DualStack.Proofs.Answers
import DualStack.Proofs.Balance
import DualStack.Proofs.Steps

namespace DualStack

namespace Node

/-- Whether a node is a loop. -/
def isLoop : Node → Bool
  | loop _ => true
  | _ => false

/-- A node that is not a loop; there may be some inside it. -/
def IsStraight (n : Node) : Prop :=
  n.isLoop = false

/-- No node of a body is a loop, nor is any node inside another. -/
def LoopFree (ns : List Node) : Prop :=
  ∀ d ∈ closing ns, d.IsStraight

instance (ns : List Node) : Decidable (LoopFree ns) :=
  inferInstanceAs (Decidable (∀ d ∈ closing ns, d.isLoop = false))

end Node

namespace Machine

/-- No word has a loop, and calls can nest at most so many levels deeper. -/
structure Bounded (level : Nat) (m : Machine) : Prop where
  words : m.Words Node.IsStraight
  room : m.callLimit ≤ m.depth + level

/-- Success keeps the bound: the dictionary stays without loops, and the depth and the return
stack, whose capacity limits it, are what they were. -/
theorem Bounded.of_ok {α : Type} {level : Nat} {m k : Machine} {e : Effect α} {a : α}
    (h : Bounded level m) (hleads : Effect.Within (Leads Node.IsStraight) e)
    (hcarries : Effect.Carries Eq e) (hok : e m = .ok a k) : Bounded level k := by
  have hsteps := hleads m h.words
  have hdepth := hcarries.depth m
  have hreturns : m.returns = k.returns := hcarries.returns hok
  rw [Effect.after_ok hok] at hsteps hdepth
  refine ⟨hsteps.words h.words, ?_⟩
  rw [callLimit, ← hreturns, hdepth]
  exact h.room

end Machine

namespace Eval

open Effect Machine

variable {level : Nat} {m : Machine}

theorem lenient_ends (m : Machine) : Ends (fun _ => lenient) m := by
  refine ⟨lenient m, ?_, 0, rfl⟩
  unfold lenient
  cases m.data.pop? with
  | none => exact isAnswer_ok _ _
  | some popped => exact isAnswer_ok _ _

theorem define_ends (name : String) (body : List Node) (m : Machine) :
    Ends (fun _ => update (·.define name body)) m :=
  ⟨.ok () (m.define name body), isAnswer_ok _ _, 0, rfl⟩

theorem node_leads {n : Node} (hn : n.Every Node.IsStraight) (fuel : Nat) :
    Within (Leads Node.IsStraight) (node lenient fuel n) :=
  (steps (fun _ => rfl) lenient_leads fuel).1 n hn

/-! ### One level

Calls are known to end here, so what is left is the text.
-/

/-- At this level, calls end. -/
def CallsEnd (level : Nat) : Prop :=
  ∀ name m, Bounded level m → Ends (call lenient · name) m

mutual

theorem node_ends (hcalls : CallsEnd level) : ∀ n : Node, n.Every Node.IsStraight →
    ∀ m, Bounded level m → Ends (node lenient · n) m
  | .word name, _, m, hm => .of_succ rfl (hcalls name m hm)
  | .reference _, _, m, _ => .of_succ rfl (.basic (.push _) m)
  | .number _, _, m, _ => .of_succ rfl (.basic (.push _) m)
  | .text _, _, m, _ => .of_succ rfl (.basic (.push _) m)
  | .collection _ _, _, m, _ => .of_succ rfl (.basic (.push _) m)
  | .definition name body, _, m, _ => .of_succ rfl (define_ends name body m)
  | .declaration name, _, m, _ => by
      refine .of_succ rfl (Ends.bind (.const _) (fun _ => .const _) ?_ ?_)
      · exact define_ends name [.reference name] m
      · exact fun _ k _ => .basic (.push _) k
  | .conditional thenBody elseBody, hn, m, hm => by
      obtain ⟨hthen, helse⟩ := List.forall_mem_append.mp (Node.every_iff.mp hn).1
      have hsteady : ∀ taken : Bool, Steady fun fuel =>
          if taken then block lenient fuel thenBody else block lenient fuel elseBody := by
        intro taken
        cases taken with
        | true => exact block_steady lenient thenBody
        | false => exact block_steady lenient elseBody
      refine .of_succ rfl (Ends.bind (.const lenient) hsteady (lenient_ends m) ?_)
      rintro taken k ⟨-, _, hok⟩
      have hk := hm.of_ok lenient_leads lenient_carries hok
      cases taken with
      | true => exact block_ends hcalls thenBody hthen k hk
      | false => exact block_ends hcalls elseBody helse k hk
  | .loop _, hn, _, _ => absurd (Node.every_iff.mp hn).2 (by simp [Node.IsStraight, Node.isLoop])

theorem block_ends (hcalls : CallsEnd level) : ∀ ns : List Node, Node.LoopFree ns →
    ∀ m, Bounded level m → Ends (block lenient · ns) m
  | [], _, m, _ => .of_succ rfl (.basic (.pure ()) m)
  | n :: ns, hns, m, hm => by
      obtain ⟨hn, hrest⟩ := Node.forall_closing_cons.mp hns
      refine .of_succ rfl (Ends.bind (node_steady lenient n) (fun _ => block_steady lenient ns)
        (node_ends hcalls n hn m hm) ?_)
      rintro _ k ⟨-, fuel, hok⟩
      have hk := hm.of_ok (node_leads hn fuel) ((carries lenient_carries fuel).1 n) hok
      exact block_ends hcalls ns hrest k hk

end

/-! ### All levels -/

/-- Calls end if bodies end one level deeper, should there be such a level. -/
theorem callsEnd (hdeeper : ∀ m body, Bounded level m → m.depth < m.callLimit →
      Node.LoopFree body → Ends (block lenient · body) { m with depth := m.depth + 1 }) :
    CallsEnd level := by
  intro name m hm
  refine .of_succ rfl (.congr (fun fuel => call_eq lenient fuel name m) ?_)
  rcases hword : m.word? name with _ | ⟨body⟩ | ⟨p⟩
  · exact .basic (.pure ()) m
  · by_cases hdeep : m.callLimit ≤ m.depth
    · have henter : enterCall m = .error .stack m := if_pos hdeep
      exact ⟨.error .stack m, isAnswer_error.mpr (by simp), 0, bind_error henter⟩
    · have henter : enterCall m = .ok () { m with depth := m.depth + 1 } := if_neg hdeep
      refine .congr (fun fuel => bind_ok henter) (.leaveCall ?_)
      exact hdeeper m body hm (Nat.lt_of_not_le hdeep) (hm.words name body (find?_of_word? hword))
  · exact .basic p.run_basic m

/-- **Blocks without loops end**, on a machine whose words have none, however many levels of
calls there are. -/
theorem block_ends_of_bounded : ∀ (level : Nat) (ns : List Node), Node.LoopFree ns →
    ∀ m, Bounded level m → Ends (block lenient · ns) m := by
  intro level
  induction level with
  | zero =>
      -- No level is left: a call of a defined word fails before its body runs.
      refine block_ends (callsEnd ?_)
      intro m body hm hroom
      have hfull := hm.room
      omega
  | succ level ih =>
      refine block_ends (callsEnd ?_)
      intro m body hm _ hbody
      have hfull : m.callLimit ≤ m.depth + 1 + level := by
        have hroom := hm.room
        omega
      exact ih body hbody _ ⟨hm.words, hfull⟩

end Eval

namespace Machine

/--
**Programs without loops come to an end.**

On a machine none of whose words has a loop anywhere in its body, a program that
has no loop anywhere in its text is interpreted to an answer, a success or an
abort: from some fuel on, more of it makes no difference.  It does not matter how
the words call each other or what they define while they run.
-/
theorem loopFree_interpret_terminates {m : Machine} {nodes : List Node}
    (hwords : ∀ name body, m.words.find? name = some body → Node.LoopFree body)
    (hnodes : Node.LoopFree nodes) :
    ∃ fuel r, IsAnswer r ∧ ∀ more, fuel ≤ more → interpret more nodes m = r := by
  have hm : Bounded m.callLimit m := ⟨hwords, Nat.le_add_left _ _⟩
  obtain ⟨r, hr⟩ := Eval.block_ends_of_bounded m.callLimit nodes hnodes m hm
  obtain ⟨fuel, hfuel⟩ := hr.eventually (Eval.block_steady Eval.lenient nodes)
  cases r with
  | ok _ k =>
      refine ⟨fuel, .ok () k, isAnswer_ok _ _, fun more hle => ?_⟩
      rw [interpret, hfuel more hle]
  | error reason k =>
      refine ⟨fuel, .error reason k.reset, isAnswer_error.mpr (isAnswer_error.mp hr.1), ?_⟩
      intro more hle
      rw [interpret, hfuel more hle]

/-- Two words that call each other for ever, one of which redefines the other on the way. -/
theorem loopFree_interpret_terminates_mutual :
    let ping : List Node := [.word "pong", .word "ping"]
    let pong : List Node :=
      [.definition "ping" [.conditional [.word "pong"] [.word "ping", .word "pong"]], .word "ping"]
    let m := { fresh 200 {} .empty with words := ⟨[("ping", ping), ("pong", pong)]⟩ }
    let nodes : List Node := [.declaration "x", .word "ping"]
    Node.LoopFree ping ∧ Node.LoopFree pong ∧ Node.LoopFree nodes ∧
      ∃ fuel r, IsAnswer r ∧ ∀ more, fuel ≤ more → interpret more nodes m = r := by
  intro ping pong m nodes
  have hping : Node.LoopFree ping := by decide
  have hpong : Node.LoopFree pong := by decide
  have hnodes : Node.LoopFree nodes := by decide
  have hwords : ∀ name body, m.words.find? name = some body → Node.LoopFree body := by
    intro name body hfind
    have hlookup : (if "ping" = name then some ping else if "pong" = name then some pong
        else none) = some body := hfind
    split at hlookup
    · cases hlookup
      exact hping
    · split at hlookup
      · cases hlookup
        exact hpong
      · exact absurd hlookup (by simp)
  exact ⟨hping, hpong, hnodes, loopFree_interpret_terminates hwords hnodes⟩

end Machine

end DualStack
