/-
Stacks and calls stay within their bounds at every point.

A stack spends a free slot on every push and cannot grow past its capacity, so what
has to be shown of the stacks is that nothing ever changes a capacity.  Calls are
bounded by a test against the capacity of the return stack each time one begins.
`Machine.Fits` says both of one machine.  Whatever happens to a machine in a single
step preserves it, so it holds of every point that any uses of a fresh machine pass
through, also of those in the middle of a primitive, a loop or a call.

The test counts the calls by the depth of the machine.  A point knows how many calls
it lies in, and the two numbers agree, so the bound is one on calls in progress.
-/
import DualStack.Proofs.Uses

namespace DualStack.Machine

variable {stackSize : Nat} {m n : Machine}

/-- Both stacks have the given capacity, and calls nest no deeper than it allows. -/
structure Fits (stackSize : Nat) (m : Machine) : Prop where
  data : m.data.capacity = stackSize
  returns : m.returns.capacity = stackSize
  depth : m.depth ≤ min maxDepth stackSize

theorem fits_fresh (stackSize : Nat) (sink : Sink) (world : World) :
    Fits stackSize (fresh stackSize sink world) :=
  ⟨Stack.capacity_empty stackSize, Stack.capacity_empty stackSize, Nat.zero_le _⟩

/-- A step keeps the capacities, and the one step that goes deeper has room to. -/
theorem Fits.step {P : Node → Prop} (hstep : Step P m n) (h : Fits stackSize m) :
    Fits stackSize n := by
  obtain ⟨hdata, hreturns, -⟩ := hstep.keeps
  refine ⟨hdata.trans h.data, hreturns.trans h.returns, ?_⟩
  have hdepth := h.depth
  cases hstep with
  | move hmove =>
      cases hmove with
      | data | store | sink | world => exact hdepth
  | returns | define => exact hdepth
  | enter hroom =>
      rw [callLimit, h.returns] at hroom
      exact hroom
  | leave =>
      show m.depth - 1 ≤ min maxDepth stackSize
      omega

theorem Fits.change (hchange : Change m n) (h : Fits stackSize m) : Fits stackSize n := by
  cases hchange with
  | step hstep => exact h.step hstep
  | reset => exact ⟨h.data, (Stack.capacity_clear m.returns).trans h.returns, Nat.zero_le _⟩

/-- **Every point that uses of a fresh machine pass through fits.** -/
theorem Passes.fits {uses : List Use} {points : List Point} (h : Passes uses m points)
    (hm : Fits stackSize m) : ∀ p ∈ points, Fits stackSize p.machine := by
  intro p hp
  have hall := h.trail.invariant (fun hchange => Fits.change hchange) hm
  exact hall p.machine (List.mem_cons_of_mem _ (List.mem_map_of_mem hp))

/-- A defined word is not called where calls may not nest any deeper, and nothing changes. -/
theorem call_refused {name : String} {body : List Node} (hfull : m.callLimit ≤ m.depth)
    (hword : m.word? name = some (.defined body)) (fuel : Nat) :
    Eval.call Eval.lenient (fuel + 1) name m = .error .stack m := by
  rw [Eval.call_eq, hword]
  exact Effect.invocation_refused hfull

/--
**Stacks and calls stay within their bounds at every point.**

However a machine with stacks of some size is used, by any sequence of programs,
primitives, pushes and clears, failing ones among them: at every point on the way
each stack holds at most that many values and still has that capacity, and at most
128 calls of defined words are in progress, or as many as the size if that is less.
Where so many are in progress, calling a defined word is a stack error and changes
nothing.
-/
theorem bounded_at_every_point (stackSize : Nat) (sink : Sink) (world : World)
    (uses : List Use) :
    (∃ points, Passes uses (fresh stackSize sink world) points) ∧
    ∀ points, Passes uses (fresh stackSize sink world) points →
      ∀ p ∈ ⟨0, fresh stackSize sink world⟩ :: points,
        (p.machine.data.size ≤ stackSize ∧ p.machine.returns.size ≤ stackSize) ∧
        (p.machine.data.capacity = stackSize ∧ p.machine.returns.capacity = stackSize) ∧
        p.calls ≤ min 128 stackSize ∧
        (p.calls = min 128 stackSize → ∀ fuel name body,
          p.machine.word? name = some (.defined body) →
            Eval.call Eval.lenient (fuel + 1) name p.machine = .error .stack p.machine) := by
  refine ⟨exists_passes uses _, ?_⟩
  intro points hpasses p hp
  have hfresh := fits_fresh stackSize sink world
  have hfits : Fits stackSize p.machine ∧ p.machine.depth = p.calls := by
    rcases List.mem_cons.mp hp with rfl | hp
    · exact ⟨hfresh, rfl⟩
    · exact ⟨hpasses.fits hfresh p hp, hpasses.depth rfl p hp⟩
  obtain ⟨h, hcalls⟩ := hfits
  refine ⟨⟨?_, ?_⟩, ⟨h.data, h.returns⟩, ?_, ?_⟩
  · exact h.data ▸ p.machine.data.size_le_capacity
  · exact h.returns ▸ p.machine.returns.size_le_capacity
  · exact hcalls ▸ h.depth
  · intro hfull fuel name body hword
    refine call_refused ?_ hword fuel
    rw [callLimit, h.returns, hcalls, hfull]
    exact Nat.le_refl _

/-- A word that calls itself, with room for one call: inside that call a second one is refused. -/
theorem bounded_at_every_point_recursion :
    let body : List Node := [.word "down"]
    let nodes : List Node := [.definition "down" body, .word "down"]
    let inside := { fresh 1 {} .empty with words := ⟨[("down", body)]⟩, depth := 1 }
    ∃ points, Passes [.push .nil, .clear, .interpret 9 nodes] (fresh 1 {} .empty) points ∧
      ⟨1, inside⟩ ∈ points ∧ inside.word? "down" = some (.defined body) ∧
      inside.returns.size ≤ 1 ∧ inside.returns.capacity = 1 ∧
      Eval.call Eval.lenient 1 "down" inside = .error .stack inside := by
  intro body nodes inside
  let defined := { fresh 1 {} .empty with words := ⟨[("down", body)]⟩ }
  obtain ⟨l, hl⟩ := Eval.block_traced 5 body inside
  have hcall : Effect.Passes (Eval.call Eval.lenient 6 "down") defined
      (⟨1, inside⟩ :: (l.map Point.deeper ++ [⟨0, defined⟩])) := by
    rw [Eval.call_eq_lookup]
    exact .word (.call (by decide) hl)
  have hrest : Effect.Passes (Eval.block Eval.lenient 8 [.word "down"]) defined
      (⟨1, inside⟩ :: (l.map Point.deeper ++ [⟨0, defined⟩])) := .stop hcall rfl
  have hblock : Effect.Passes (Eval.block Eval.lenient 9 nodes) (fresh 1 {} .empty)
      (⟨0, defined⟩ :: ⟨1, inside⟩ :: (l.map Point.deeper ++ [⟨0, defined⟩])) :=
    .next (.atom (.define "down" body)) rfl hrest
  have hpasses : Passes [.push .nil, .clear, .interpret 9 nodes] (fresh 1 {} .empty) _ :=
    .cons (.push .nil) (.cons .clear (.cons (.interpret hblock) .nil))
  obtain ⟨-, hall⟩ := bounded_at_every_point 1 {} .empty [.push .nil, .clear, .interpret 9 nodes]
  obtain ⟨⟨-, hsize⟩, ⟨-, hcapacity⟩, -, hrefused⟩ := hall _ hpasses ⟨1, inside⟩ (by simp)
  exact ⟨_, hpasses, by simp, rfl, hsize, hcapacity, hrefused rfl 0 "down" body rfl⟩

end DualStack.Machine
