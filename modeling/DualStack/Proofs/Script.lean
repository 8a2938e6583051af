/-
A script does what its lines do one after the other.

Running a source that parses is evaluating its forest and then flushing.  While the
sink lets itself be flushed, and evaluation never changes whether it does, the
outcome of a run is the outcome of its block with the loop bookkeeping of an abort
forgotten: `Session.settle`.  Between two lines that succeed there is nothing to
forget, since a block that succeeds leaves the return stack and the depth as they
were.

So running lines one by one is evaluating their forests one by one, and that comes
to the same answer as evaluating them as one forest.  Which is the forest of the
whole script, if each line parses on its own and leaves no text literal open.
-/
import DualStack.Proofs.Answers
import DualStack.Proofs.Lines
import DualStack.Proofs.Steps
import DualStack.Session

namespace DualStack

namespace Eval

open Effect

theorem forM_steady (test : Effect Bool) (forests : List (List Node)) :
    Steady fun fuel => forests.forM (block test fuel) := by
  induction forests with
  | nil => exact .const _
  | cons nodes forests ih =>
      intro fuel more hle
      exact .bind (block_steady test nodes hle) fun _ => ih hle

/-- **Forests one after the other are one forest.** -/
theorem forM_answers {test : Effect Bool} {r : EStateM.Result Abort Machine Unit} :
    ∀ {forests : List (List Node)} {m : Machine},
      Answers (fun fuel => forests.forM (block test fuel)) m r ↔
        Answers (block test · forests.flatten) m r := by
  intro forests
  induction forests with
  | nil =>
      intro m
      exact answers_pure.trans block_answers_nil.symm
  | cons ns forests ih =>
      intro m
      rw [List.flatten_cons, block_answers_append]
      refine (answers_then (block_steady test ns) (forM_steady test forests)).trans ?_
      simp only [ih]

end Eval

namespace Session

open Effect

variable {m : Machine}

/-- What a run makes of the outcome of its block, when the flush succeeds. -/
def settle : EStateM.Result Abort Machine Unit → EStateM.Result Failure Machine Unit
  | .ok () m => .ok () m
  | .error reason m => .error (.runtime reason) m.reset

/-- Whether a run was cut short for want of fuel. -/
def isCutShort : EStateM.Result Failure Machine Unit → Bool
  | .error (.runtime .outOfFuel) _ => true
  | _ => false

theorem isAnswer_of_settle {r : EStateM.Result Abort Machine Unit}
    (h : isCutShort (settle r) = false) : IsAnswer r := by
  rintro m rfl
  exact absurd h (by simp [settle, isCutShort])

theorem flush_eq (h : m.sink.stuck = none) : flush m = .ok () m := by
  unfold flush Sink.flush
  rw [h]

/-- Evaluation does not change how the sink answers a flush. -/
theorem stuck_of_block (fuel : Nat) (nodes : List Node) (h : m.sink.stuck = none) :
    ((Eval.block Eval.lenient fuel nodes).after m).sink.stuck = none := by
  have hsteps := Eval.block_steps Eval.lenient_leads fuel nodes m
  rw [hsteps.keeps.2.2, h]

theorem run_eq_settle (fuel : Nat) {source : String} {nodes : List Node}
    (hparse : parse source = .ok nodes) (hflush : m.sink.stuck = none) :
    run fuel source m = settle (Eval.block Eval.lenient fuel nodes m) := by
  have hafter := stuck_of_block fuel nodes hflush
  unfold run Machine.interpret
  rw [hparse]
  dsimp only
  cases hblock : Eval.block Eval.lenient fuel nodes m with
  | ok _ k =>
      rw [after_ok hblock] at hafter
      dsimp only
      rw [flush_eq hafter]
      rfl
  | error reason k =>
      rw [after_error hblock] at hafter
      have hreset : k.reset.sink.stuck = none := hafter
      dsimp only
      rw [flush_eq hreset]
      rfl

/-- Running lines in order, up to the first that fails, is evaluating their forests in order. -/
theorem forM_run_eq_settle (fuel : Nat) {lines : List String} {forests : List (List Node)}
    (hparse : List.Forall₂ (fun line forest => parse line = .ok forest) lines forests) :
    ∀ {m : Machine}, m.sink.stuck = none →
      lines.forM (run fuel) m = settle (forests.forM (Eval.block Eval.lenient fuel) m) := by
  induction hparse with
  | nil =>
      intro m _
      rfl
  | @cons line forest lines forests hline _ ih =>
      intro m hflush
      have hrun := run_eq_settle fuel hline hflush
      have hafter := stuck_of_block fuel forest hflush
      show EStateM.bind (run fuel line) (fun _ => lines.forM (run fuel)) m = _
      unfold EStateM.bind
      cases hblock : Eval.block Eval.lenient fuel forest m with
      | ok _ k =>
          have hrest : (forest :: forests).forM (Eval.block Eval.lenient fuel) m =
              forests.forM (Eval.block Eval.lenient fuel) k := bind_ok hblock
          rw [after_ok hblock] at hafter
          rw [hrun, hblock, hrest]
          exact ih hafter
      | error reason k =>
          have hrest : (forest :: forests).forM (Eval.block Eval.lenient fuel) m =
              .error reason k := bind_error hblock
          rw [hrun, hblock, hrest]
          rfl

/-- What the runs come to, told by the answers of what they evaluate. -/
theorem exists_settle_iff {e : Nat → Effect Unit} {r : EStateM.Result Failure Machine Unit}
    (hr : isCutShort r = false) :
    (∃ fuel, settle (e fuel m) = r) ↔ ∃ s, Answers e m s ∧ settle s = r := by
  constructor
  · rintro ⟨fuel, rfl⟩
    exact ⟨e fuel m, ⟨isAnswer_of_settle hr, fuel, rfl⟩, rfl⟩
  · rintro ⟨s, ⟨-, fuel, hfuel⟩, hs⟩
    exact ⟨fuel, by rw [hfuel, hs]⟩

/--
**A script does what its lines do one after the other.**

For lines each of which parses on its own and closes its text literals, the source
made of them has the tokens of the lines, moved to where each line starts, and
their forests in a row.  On a machine whose output can be flushed, running that
source and running the lines in order up to the first failure come to the same
end, with the same machine: they fail alike, succeed alike, or neither ends.

A source that does not parse changes nothing, however many of these lines stand in
front of what is wrong with it.
-/
theorem script_runs_as_its_lines {lines : List String} {forests : List (List Node)}
    (hparse : List.Forall₂ (fun line forest => parse line = .ok forest) lines forests)
    (hclosed : ∀ line ∈ lines, QuotesClosed line) :
    (Token.scan ("\n".intercalate lines) = lineTokens 0 lines ∧
      parse ("\n".intercalate lines) = .ok forests.flatten) ∧
    (∀ (m : Machine) (r : EStateM.Result Failure Machine Unit), m.sink.stuck = none →
      isCutShort r = false →
        ((∃ fuel, run fuel ("\n".intercalate lines) m = r) ↔
          ∃ fuel, lines.forM (run fuel) m = r)) ∧
    (∀ (broken : String) (error : ParseError), parse broken = .error error →
      ∀ (fuel : Nat) (m : Machine),
        run fuel broken m = .error (.parse error) m ∧
        run fuel ("\n".intercalate (lines ++ [broken])) m =
          .error (.parse (error.shift (lineBytes lines))) m) := by
  have hjoined := parse_lines hparse hclosed
  refine ⟨⟨scan_lines hclosed, hjoined⟩, ?_, ?_⟩
  · intro m r hflush hr
    have hscript := fun fuel => run_eq_settle fuel hjoined hflush
    have hlines := fun fuel => forM_run_eq_settle fuel hparse hflush
    simp only [hscript, hlines]
    rw [exists_settle_iff hr, exists_settle_iff hr]
    simp only [Eval.forM_answers]
  · intro broken error hbroken fuel m
    refine ⟨?_, ?_⟩
    · rw [run, hbroken]
    · rw [run, parse_lines_error hparse hclosed hbroken]

/-- Lines that parse have forests. -/
theorem exists_forests {lines : List String} (h : ∀ line ∈ lines, (parse line).toBool = true) :
    ∃ forests, List.Forall₂ (fun line forest => parse line = .ok forest) lines forests := by
  induction lines with
  | nil => exact ⟨[], .nil⟩
  | cons line lines ih =>
      obtain ⟨forests, hrest⟩ := ih fun l hl => h l (List.mem_cons_of_mem _ hl)
      have hline := h line (List.mem_cons_self ..)
      cases hparse : parse line with
      | error error =>
          rw [hparse] at hline
          exact absurd hline (by simp [Except.toBool])
      | ok forest => exact ⟨forest :: forests, .cons hparse hrest⟩

/-- A definition, a text and a variable on lines of their own, a line that fails after it has
printed, and one that is never reached; then the same with a line that does not parse. -/
theorem script_runs_as_its_lines_failing :
    let lines := [": sq dup * ;", "\"two words\" . var x", "x 3 sq ! x @ . drop drop", "1 ."]
    let script := "\n".intercalate lines
    let broken := "\n".intercalate (lines ++ ["dup if"])
    let m := Machine.fresh 6 {} .empty
    (∃ forests, List.Forall₂ (fun line forest => parse line = .ok forest) lines forests ∧
      parse script = .ok forests.flatten) ∧
    (∀ line ∈ lines, QuotesClosed line) ∧
    (isCutShort (run 60 script m) = false ∧
      ∃ fuel, lines.forM (run fuel) m = run 60 script m) ∧
    run 60 broken m = .error (.parse ⟨66, .unclosedScope .conditional⟩) m := by
  intro lines script broken m
  have hparses : ∀ line ∈ lines, (parse line).toBool = true := by decide +kernel
  obtain ⟨forests, hparse⟩ := exists_forests hparses
  have hclosed : ∀ line ∈ lines, QuotesClosed line := by decide +kernel
  have hended : isCutShort (run 60 script m) = false := by decide +kernel
  have herror : parse "dup if" = .error ⟨4, .unclosedScope .conditional⟩ := by
    with_unfolding_all rfl
  obtain ⟨⟨-, hscript⟩, hruns, hbroken⟩ := script_runs_as_its_lines hparse hclosed
  refine ⟨⟨forests, hparse, hscript⟩, hclosed, ⟨hended, ?_⟩, ?_⟩
  · exact (hruns m (run 60 script m) rfl hended).mp ⟨60, rfl⟩
  · exact (hbroken "dup if" _ herror 60 m).2

end Session

end DualStack
