/-
What evaluation does not look at.

A program does not see the values below those it was given, and it does not see
how deep the calls around it nest, unless it fails.  Both come from running two
machines side by side, as for a larger stack: the one with more values below and
fewer calls in progress covers the other, and so it succeeds if the other does.

Covering says that the second machine has at least as much room.  Here the two
machines are known exactly: evaluation keeps the capacity of the data stack, the
return stack and the call depth, so the machines it leaves differ by no more than
the machines it started from (`Eval.block_rebase`).

The values below go unseen only if a conditional insists on a value to test.  The
evaluator that insists is `strict`; what it does, `lenient` does on top of
anything.  A call of a defined word runs its body one level deeper, and the same
body runs at the level of the caller.
-/
import DualStack.Machine.Fuel
import DualStack.Proofs.Balance
import DualStack.Proofs.Room
import DualStack.Proofs.Steps

namespace DualStack

/-! ### Machines that differ in what is below and around -/

/-- The stack on top of other values, given from the bottom up, with the room it had. -/
def Stack.above {α : Type} (below : List α) (s : Stack α) : Stack α :=
  ⟨s.items ++ below.reverse, s.free⟩

namespace Stack

variable {α : Type} {below : List α} {s t : Stack α}

@[simp] theorem capacity_above : (s.above below).capacity = s.capacity + below.length := by
  simp only [above, capacity, size, List.length_append, List.length_reverse]
  omega

@[simp] theorem above_nil : s.above [] = s := by
  simp [above]

/-- A stack that covers another is that one on top of the values below, if it has no more room
than it needs for them. -/
theorem Covers.eq_above (h : Covers below.reverse s t)
    (hcap : t.capacity = s.capacity + below.length) : t = s.above below := by
  obtain ⟨items, free⟩ := s
  obtain ⟨titems, tfree⟩ := t
  obtain rfl : titems = items ++ below.reverse := h.items
  simp only [Stack.capacity, size, List.length_append, List.length_reverse] at hcap
  obtain rfl : tfree = free := by omega
  rfl

end Stack

namespace Machine

variable {below : List Value} {m n : Machine}

/-- The machine with other values below its data stack, at another call depth. -/
def rebase (below : List Value) (depth : Nat) (m : Machine) : Machine :=
  { m with data := m.data.above below, depth := depth }

theorem rebase_nil (depth : Nat) (m : Machine) : m.rebase [] depth = { m with depth } := by
  simp [rebase]

theorem covers_rebase {depth : Nat} (h : depth ≤ m.depth) :
    Covers below.reverse m (m.rebase below depth) where
  data := ⟨rfl, Nat.le_refl _⟩
  returns := ⟨(List.append_nil _).symm, Nat.le_refl _⟩
  words := rfl
  slots := rfl
  sink := rfl
  world := rfl
  depth := h

theorem Covers.eq_rebase (h : Covers below.reverse m n)
    (hdata : n.data.capacity = m.data.capacity + below.length) (hreturns : n.returns = m.returns) :
    n = m.rebase below n.depth := by
  obtain ⟨data, returns, words, slots, sink, world, depth⟩ := n
  obtain rfl : data = m.data.above below := h.data.eq_above hdata
  obtain rfl : returns = m.returns := hreturns
  obtain rfl : words = m.words := h.words
  obtain rfl : slots = m.slots := h.slots
  obtain rfl : sink = m.sink := h.sink
  obtain rfl : world = m.world := h.world
  rfl

end Machine

/-! ### Evaluation keeps the difference -/

namespace Eval

open Effect Machine

/-- A way to take a condition that leaves the loops, the calls and the capacities alone. -/
structure Tame (test : Effect Bool) : Prop where
  carries : Carries Eq test
  leads : Within (Leads fun _ => True) test

theorem lenient_tame : Tame lenient :=
  ⟨lenient_carries, lenient_leads⟩

theorem strict_tame : Tame strict :=
  ⟨.basic strict_basic, leads_basic strict_basic⟩

variable {test test' : Effect Bool} {below : List Value} {fuel : Nat} {nodes : List Node}
  {m m' : Machine}

/-- What a successful block keeps. -/
theorem Tame.block_keeps (htest : Tame test) (h : block test fuel nodes m = .ok () m') :
    m'.data.capacity = m.data.capacity ∧ m'.returns = m.returns ∧ m'.depth = m.depth := by
  have hcarries := (Eval.carries htest.carries fuel).2.1 nodes
  have hsteps := block_steps htest.leads fuel nodes m
  have hdepth := hcarries.depth m
  rw [after_ok h] at hsteps hdepth
  exact ⟨hsteps.keeps.1, (hcarries.returns h).symm, hdepth⟩

/-- **A block that succeeds does the same with other values below and at a smaller depth**, if
the ways to take a condition do. -/
theorem block_rebase (below : List Value) (hsim : Simulates below.reverse test test')
    (htest : Tame test) (htest' : Tame test') {depth : Nat} (hdepth : depth ≤ m.depth)
    (h : block test fuel nodes m = .ok () m') :
    block test' fuel nodes (m.rebase below depth) = .ok () (m'.rebase below depth) := by
  obtain ⟨n, hrun, hcovers⟩ := (simulates hsim fuel).2.1 nodes (covers_rebase hdepth) h
  obtain ⟨hcap, hreturns, -⟩ := htest.block_keeps h
  obtain ⟨hcap', hreturns', hdepth'⟩ := htest'.block_keeps hrun
  have hdata : n.data.capacity = m'.data.capacity + below.length := by
    rw [hcap', hcap]
    exact Stack.capacity_above
  have hsame : n = m'.rebase below n.depth :=
    hcovers.eq_rebase hdata (hreturns'.trans hreturns.symm)
  have hlevel : n.depth = depth := hdepth'
  rw [hrun, hsame, hlevel]

/-! ### Values below -/

/-- A value that `strict` finds, `lenient` finds on top of anything. -/
theorem strict_simulates_lenient : Simulates below strict lenient := by
  intro m n m' taken h hok
  obtain ⟨v, mid, hpop, hrest⟩ := of_bind_ok hok
  cases hrest
  unfold pop at hpop
  unfold lenient
  cases hs : m.data.pop? with
  | none =>
      rw [hs] at hpop
      exact absurd hpop (by simp)
  | some popped =>
      obtain ⟨w, s⟩ := popped
      rw [hs] at hpop
      cases hpop
      obtain ⟨t, ht, hcovers⟩ := h.data.pop? hs
      rw [ht]
      exact ⟨_, rfl, { h with data := hcovers }⟩

/--
**The values below are left alone.**

If a block succeeds under the evaluator that insists on a value for every
condition, then on top of any values it succeeds under the evaluator that does
not, given room for those values.  It leaves them where they were, its own result
above them, and everything else as without them.
-/
theorem block_above_unseen_values (below : List Value) {fuel : Nat} {nodes : List Node}
    {m m' : Machine} (h : block strict fuel nodes m = .ok () m') :
    block lenient fuel nodes { m with data := m.data.above below } =
      .ok () { m' with data := m'.data.above below } := by
  have hrun := block_rebase below strict_simulates_lenient strict_tame lenient_tame
    (Nat.le_refl m.depth) h
  obtain ⟨-, -, hdepth⟩ := strict_tame.block_keeps h
  have hsame : m'.rebase below m.depth = { m' with data := m'.data.above below } := by
    rw [← hdepth]
    rfl
  rw [← hsame]
  exact hrun

/-- A loop that calls a word with a conditional in it, on top of two values it never sees. -/
theorem block_above_unseen_values_loop :
    let sign : Node := .definition "sign"
      [.word "dup", .number 0.0, .word "<", .conditional [.text "-"] [.text "+"], .word "."]
    let nodes : List Node :=
      [sign, .number 3.0, .number 1.0, .loop [.word "I", .word "sign", .word "+"]]
    let m := { Machine.fresh 5 {} .empty with data := ⟨[.number 7.0], 4⟩ }
    let n := { m with data := m.data.above [.nil, .text "kept"] }
    n.data.values = [.nil, .text "kept", .number 7.0] ∧ n.data.capacity = 7 ∧
    ∃ m', block strict 40 nodes m = .ok () m' ∧
      block lenient 40 nodes n = .ok () { m' with data := m'.data.above [.nil, .text "kept"] } := by
  intro sign nodes m n
  have hok := eq_ok_of_succeeds (e := block strict 40 nodes) (m := m) (by decide +kernel)
  exact ⟨rfl, rfl, _, hok, block_above_unseen_values _ hok⟩

/-- A conditional that finds no value takes its second branch, and with a value below its
first. -/
example :
    let nodes : List Node := [.conditional [] [.number 1.0]]
    let m := Machine.fresh 1 {} .empty
    ((block lenient 9 nodes).after m).data.size = 1 ∧
      ((block lenient 9 nodes).after { m with data := m.data.above [.boolean true] }).data.size
        = 0 := by
  decide +kernel

/-! ### Calls around -/

/-- A machine with nothing of its own below does whatever the other does. -/
theorem block_at_depth (depth : Nat) (hdepth : depth ≤ m.depth)
    (h : block lenient fuel nodes m = .ok () m') :
    block lenient fuel nodes { m with depth } = .ok () { m' with depth } := by
  have hrun := block_rebase [] lenient_simulates lenient_tame lenient_tame hdepth h
  rwa [rebase_nil, rebase_nil] at hrun

/-- A call that succeeds is its body, one level deeper. -/
theorem of_call_ok {name : String} {body : List Node} (hword : m.word? name = some (.defined body))
    (h : call test (fuel + 1) name m = .ok () m') :
    ∃ k, block test fuel body { m with depth := m.depth + 1 } = .ok () k ∧
      m' = { k with depth := k.depth - 1 } := by
  rw [call_eq, hword] at h
  obtain ⟨_, mid, henter, hleave⟩ := of_bind_ok h
  unfold enterCall at henter
  split at henter
  · exact absurd henter (by simp)
  · cases henter
    unfold leaveCall at hleave
    split at hleave
    · rename_i k hbody
      cases hleave
      exact ⟨k, hbody, rfl⟩
    · exact absurd hleave (by simp)

/--
**A word means its body.**

If a name stands for a defined word and running the name succeeds, then running
the body in its place succeeds and leaves the very same machine.  And whatever
succeeds inside some calls succeeds with the same result inside fewer of them.
-/
theorem defined_word_runs_as_body :
    (∀ (fuel : Nat) (name : String) (body : List Node) (m m' : Machine),
      m.word? name = some (.defined body) → node lenient fuel (.word name) m = .ok () m' →
        block lenient fuel body m = .ok () m') ∧
    (∀ (fuel : Nat) (nodes : List Node) (m m' : Machine) (depth : Nat), depth ≤ m.depth →
      block lenient fuel nodes m = .ok () m' →
        block lenient fuel nodes { m with depth } = .ok () { m' with depth }) := by
  refine ⟨?_, fun fuel nodes m m' depth hdepth h => block_at_depth depth hdepth h⟩
  intro fuel name body m m' hword h
  -- A name takes one unit of fuel and its call another: with less there is no success.
  match fuel, h with
  | fuel + 2, h =>
      obtain ⟨k, hbody, rfl⟩ := of_call_ok hword h
      obtain ⟨-, -, hdepth⟩ := lenient_tame.block_keeps hbody
      have hsame : { k with depth := k.depth - 1 } = { k with depth := m.depth } := by
        rw [hdepth]
        rfl
      have hrun := block_at_depth m.depth (Nat.le_succ m.depth) hbody
      have hmore := block_extends_of_le lenient body (Nat.le_add_right fuel 2) m
      rw [hsame]
      rcases hmore with ⟨n, hstuck⟩ | hmore
      · exact absurd (hstuck.symm.trans hrun) (by simp)
      · exact hmore.trans hrun

/-- A word that counts down by calling itself and gives itself another meaning at the end, three
calls deep and at the top. -/
theorem defined_word_runs_as_body_countdown :
    let body : List Node := [.word "dup", .number 0.0, .word ">",
      .conditional [.number 1.0, .word "-", .word "down"] [.definition "down" [.word "."]]]
    let m := { Machine.fresh 8 {} .empty with
      data := ⟨[.number 2.0], 7⟩, words := ⟨[("down", body)]⟩, depth := 3 }
    m.word? "down" = some (.defined body) ∧
    ∃ m', node lenient 60 (.word "down") m = .ok () m' ∧ block lenient 60 body m = .ok () m' ∧
      block lenient 60 body { m with depth := 0 } = .ok () { m' with depth := 0 } := by
  intro body m
  obtain ⟨hbody, hdepth⟩ := defined_word_runs_as_body
  have hword : m.word? "down" = some (.defined body) := rfl
  have hok := eq_ok_of_succeeds (e := node lenient 60 (.word "down")) (m := m) (by decide +kernel)
  have hrun := hbody 60 "down" body m _ hword hok
  exact ⟨hword, _, hok, hrun, hdepth 60 body m _ 0 (Nat.zero_le _) hrun⟩

end Eval

end DualStack
