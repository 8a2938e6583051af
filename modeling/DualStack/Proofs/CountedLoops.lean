/-
Counted loops.

A loop between two integers runs its body once for each integer from its start up
to but not including its limit, in order, and nothing else: `indices` lists those
integers and `Counted` says what it is to run the body for each of them.  Doubles count
integers exactly up to `2 ^ 53`, so the index of a round is the double of the integer,
the test against the limit is that of the integers, and the index of the next round is
the next integer.  The proof is an induction on how many integers are left.

What a body finds as the index stays the index for as long as no loop inside it is
running.  `Meets` tells the nodes that a block comes to, in branches and in words it
calls but not in loops, together with the machine each one is met on; the return
stack is the same on all of them.
-/
import DualStack.Proofs.Loops
import DualStack.Proofs.WholeNumbers

namespace DualStack

/-- An integer as a value. -/
def Value.integer (i : Int) : Value :=
  .number (Float.ofInt i)

namespace Eval

open Effect Machine Value

/-- The integers from `start` on that are below `limit`. -/
def indices (start limit : Int) : List Int :=
  (List.range (limit - start).toNat).map fun k : Nat => start + k

section Counting

variable {start limit : Int}

theorem indices_of_le (h : limit ≤ start) : indices start limit = [] := by
  have hnone : (limit - start).toNat = 0 := by omega
  rw [indices, hnone]
  rfl

theorem indices_of_lt (h : start < limit) :
    indices start limit = start :: indices (start + 1) limit := by
  have hsome : (limit - start).toNat = (limit - (start + 1)).toNat + 1 := by omega
  unfold indices
  rw [hsome, List.range_succ_eq_map, List.map_cons, List.map_map]
  congr 1
  · simp
  · refine List.map_congr_left fun k _ => ?_
    simp only [Function.comp_apply, Nat.succ_eq_add_one]
    push_cast
    ring

/-- A loop goes on below its limit. -/
theorem goesOn_integer (hstart : |start| ≤ 2 ^ 53) (hlimit : |limit| ≤ 2 ^ 53) (hne : limit ≠ 0) :
    goesOn (integer limit) (integer start) =
      if start < limit then some (Float.ofInt start) else none := by
  have hzero : (Float.ofInt limit == 0.0) = false :=
    Bool.eq_false_iff.mpr fun h => hne ((Binary.ofInt_beq_zero hlimit).mp h)
  unfold goesOn integer
  simp only [hzero, Bool.or_false, decide_eq_true_eq, Binary.ofInt_lt_ofInt hstart hlimit]

end Counting

/-! ### Rounds one after the other -/

/-- The outcome of running a body once for each integer, in order. Every run finds the limit and
its integer on the return stack; one that succeeds leaves the rest to the next, without them, and
the first that aborts is the last. -/
inductive Counted (body : List Node) (limit : Int) :
    List Int → Machine → EStateM.Result Abort Machine Unit → Prop
  | done {m : Machine} : Counted body limit [] m (.ok () m)
  | next {i : Int} {is : List Int} {m n : Machine} {r : EStateM.Result Abort Machine Unit}
      (hbody : Answers (block lenient · body) (m.inLoop (integer limit) (integer i)) (.ok () n))
      (hrest : Counted body limit is { n with returns := m.returns } r) :
      Counted body limit (i :: is) m r
  | abort {i : Int} {is : List Int} {m n : Machine} {reason : Abort}
      (hbody : Answers (block lenient · body) (m.inLoop (integer limit) (integer i))
        (.error reason n)) :
      Counted body limit (i :: is) m (.error reason n)

section Rounds

variable {m n : Machine} {limit index : Value} {body : List Node}
  {r : EStateM.Result Abort Machine Unit}

theorem round_steady (body : List Node) (limit index : Value) :
    Steady (round · body limit index) := by
  intro fuel more hle m
  rcases block_extends_of_le lenient body hle (m.inLoop limit index) with ⟨n, hstuck⟩ | hsame
  · exact Or.inl ⟨n, round_error.mpr hstuck⟩
  · refine Or.inr ?_
    show round more body limit index m = round fuel body limit index m
    unfold round
    rw [hsame]

theorem running_steady (body : List Node) (limit index : Value) :
    Steady (running · body limit index) := by
  intro fuel more hle m
  exact iterate_steady lenient body hle (m.inLoop limit index)

theorem running_answers_succ :
    Answers (running · body limit index) m r ↔
      Answers (fun fuel => running (fuel + 1) body limit index) m r :=
  (answers_succ rfl : Answers (iterate lenient · body) (m.inLoop limit index) r ↔ _)

theorem round_answers_ok :
    Answers (round · body limit index) m (.ok () n) ↔
      ∃ k, Answers (block lenient · body) (m.inLoop limit index) (.ok () k) ∧
        n = { k with returns := m.returns } := by
  constructor
  · rintro ⟨-, fuel, hfuel⟩
    cases hbody : block lenient fuel body (m.inLoop limit index) with
    | ok _ k =>
        cases (round_ok hbody).symm.trans hfuel
        exact ⟨k, ⟨isAnswer_ok _ _, fuel, hbody⟩, rfl⟩
    | error reason k => exact absurd ((round_error.mpr hbody).symm.trans hfuel) (by simp)
  · rintro ⟨k, ⟨-, fuel, hbody⟩, rfl⟩
    exact ⟨isAnswer_ok _ _, fuel, round_ok hbody⟩

theorem round_answers_error {reason : Abort} :
    Answers (round · body limit index) m (.error reason n) ↔
      Answers (block lenient · body) (m.inLoop limit index) (.error reason n) := by
  unfold Answers
  simp only [round_error]

theorem running_answers_over (hroom : 2 ≤ m.returns.free) (hover : goesOn limit index = none) :
    Answers (running · body limit index) m r ↔ r = .ok () m := by
  have hdone : ∀ fuel, running (fuel + 1) body limit index m = (pure () : Effect Unit) m :=
    fun fuel => running_over hroom hover
  exact running_answers_succ.trans ((answers_congr hdone).trans answers_pure)

/-- The answers of a loop that goes on are those of one round and of the loop after it. -/
theorem running_answers_goesOn (hroom : 2 ≤ m.returns.free) {i : Float}
    (hgoes : goesOn limit index = some i) :
    Answers (running · body limit index) m r ↔
      (∃ k, Answers (round · body limit index) m (.ok () k) ∧
        Answers (running · body limit (.number (i + 1.0))) k r) ∨
      (∃ reason k, Answers (round · body limit index) m (.error reason k) ∧
        r = .error reason k) := by
  have hnext : ∀ fuel, running (fuel + 1) body limit index m =
      (do round fuel body limit index; running fuel body limit (.number (i + 1.0))) m :=
    fun fuel => running_goesOn hroom hgoes
  refine running_answers_succ.trans ((answers_congr hnext).trans ?_)
  exact answers_then (round_steady body limit index) (running_steady body limit _)

end Rounds

section Counted

variable {m : Machine} {body : List Node} {start limit i : Int} {is : List Int}
  {r : EStateM.Result Abort Machine Unit}

theorem counted_nil : Counted body limit [] m r ↔ r = .ok () m := by
  constructor
  · rintro ⟨⟩
    rfl
  · rintro rfl
    exact .done

theorem counted_cons :
    Counted body limit (i :: is) m r ↔
      (∃ k, Answers (round · body (integer limit) (integer i)) m (.ok () k) ∧
        Counted body limit is k r) ∨
      (∃ reason k, Answers (round · body (integer limit) (integer i)) m (.error reason k) ∧
        r = .error reason k) := by
  constructor
  · intro h
    cases h with
    | next hbody hrest => exact Or.inl ⟨_, round_answers_ok.mpr ⟨_, hbody, rfl⟩, hrest⟩
    | abort hbody => exact Or.inr ⟨_, _, round_answers_error.mpr hbody, rfl⟩
  · rintro (⟨k, hround, hrest⟩ | ⟨reason, k, hround, rfl⟩)
    · obtain ⟨n, hbody, rfl⟩ := round_answers_ok.mp hround
      exact .next hbody hrest
    · exact .abort (round_answers_error.mp hround)

/-- **A loop between integers comes to the outcome of its rounds.** -/
theorem running_answers_counted (hlimit : |limit| ≤ 2 ^ 53) (hne : limit ≠ 0) :
    ∀ (count : Nat) {start : Int} {m : Machine}, (limit - start).toNat = count →
      |start| ≤ 2 ^ 53 → 2 ≤ m.returns.free →
      (Answers (running · body (integer limit) (integer start)) m r ↔
        Counted body limit (indices start limit) m r) := by
  intro count
  induction count with
  | zero =>
      intro start m hcount hstart hroom
      have hover : goesOn (integer limit) (integer start) = none := by
        rw [goesOn_integer hstart hlimit hne, if_neg (by omega)]
      rw [running_answers_over hroom hover, indices_of_le (by omega), counted_nil]
  | succ count ih =>
      intro start m hcount hstart hroom
      have hlt : start < limit := by omega
      have hgoes : goesOn (integer limit) (integer start) = some (Float.ofInt start) := by
        rw [goesOn_integer hstart hlimit hne, if_pos hlt]
      have hnext : |start + 1| ≤ 2 ^ 53 := by
        rw [abs_le] at hstart hlimit ⊢
        omega
      have hindex : Value.number (Float.ofInt start + 1.0) = integer (start + 1) := by
        rw [Binary.ofInt_add_one hstart hnext]
        rfl
      rw [running_answers_goesOn hroom hgoes, indices_of_lt hlt, hindex, counted_cons]
      -- The first round is the same on both sides; after it, one integer less is left.
      refine or_congr_left (exists_congr fun n => and_congr_right fun hround => ?_)
      obtain ⟨-, fuel, hfuel⟩ := hround
      have hafter : 2 ≤ n.returns.free := by rwa [returns_of_round hfuel]
      exact ih (by omega) hnext hafter

end Counted

/-! ### The index, wherever it is asked for -/

/-- A block comes to a node on a machine: one of its own nodes, or one in the branch it takes of a
conditional, or one in the body of a word it calls, but none inside a loop. -/
inductive Meets : List Node → Machine → Node → Machine → Prop
  | here {d : Node} {ds : List Node} {m : Machine} : Meets (d :: ds) m d m
  | later {d d' : Node} {ds : List Node} {m n k : Machine}
      (hfirst : Answers (node lenient · d) m (.ok () n)) (hrest : Meets ds n d' k) :
      Meets (d :: ds) m d' k
  | branch {thenBody elseBody ds : List Node} {taken : Bool} {d : Node} {m n k : Machine}
      (htest : lenient m = .ok taken n)
      (hinside : Meets (if taken then thenBody else elseBody) n d k) :
      Meets (.conditional thenBody elseBody :: ds) m d k
  | call {name : String} {body ds : List Node} {d : Node} {m n k : Machine}
      (hword : m.word? name = some (.defined body)) (henter : enterCall m = .ok () n)
      (hinside : Meets body n d k) : Meets (.word name :: ds) m d k

/-- Every node a block comes to finds the return stack the block was given. -/
theorem Meets.returns {ds : List Node} {m k : Machine} {d : Node} (h : Meets ds m d k) :
    k.returns = m.returns := by
  induction h with
  | here => rfl
  | @later d _ _ _ _ _ hfirst _ ih =>
      obtain ⟨-, fuel, hfuel⟩ := hfirst
      exact ih.trans (((carries lenient_carries fuel).1 d).returns hfuel).symm
  | branch htest _ ih => exact ih.trans (lenient_carries.returns htest).symm
  | call _ henter _ ih =>
      refine ih.trans ?_
      unfold enterCall at henter
      split at henter
      · exact absurd henter (by simp)
      · cases henter
        rfl

/-- Anywhere in a round outside a loop inside it, the index is that of the round. -/
theorem Meets.loopIndex {body : List Node} {m k : Machine} {limit index : Value} {d : Node}
    (h : Meets body (m.inLoop limit index) d k) :
    Primitive.loopIndex.run k = push index k := by
  have hpeek : peekReturn k = .ok index k := by
    unfold peekReturn
    rw [h.returns]
    rfl
  exact bind_ok hpeek

/-- A word that stands for a primitive does what the primitive does. -/
theorem word_answers_primitive {m : Machine} {name : String} {p : Primitive}
    {r : EStateM.Result Abort Machine Unit} (hword : m.word? name = some (.primitive p)) :
    Answers (node lenient · (.word name)) m r ↔ r = p.run m := by
  have hrun : ∀ fuel, node lenient (fuel + 1 + 1) (.word name) m = p.run m := by
    intro fuel
    have hget : (get : Effect Machine) m = .ok m m := rfl
    rw [node, call, bind_ok hget, hword]
  constructor
  · intro h
    obtain ⟨-, fuel, hfuel⟩ := (answers_succ rfl).mp ((answers_succ rfl).mp h)
    exact hfuel.symm.trans (hrun fuel)
  · rintro rfl
    exact ⟨p.run_basic.isAnswer m, 2, hrun 0⟩

/--
**A counted loop runs its body once for each index.**

Between integers of at most `2 ^ 53` in size and with a limit other than zero, a loop
that has room for its bounds has exactly the outcomes of running its body for each
integer from the start up to the limit, in order, from the data stack below the
bounds and with limit and integer on top of the return stack.  Where it succeeds the
return stack is what it was.  Anywhere in the run for an integer, in words it calls
too but outside the loops inside it, a word that stands for the loop index pushes that
integer.
-/
theorem counted_loop_runs_body_for_each_index {start limit : Int} (hstart : |start| ≤ 2 ^ 53)
    (hlimit : |limit| ≤ 2 ^ 53) (hne : limit ≠ 0) {m : Machine} {below : List Value}
    (hdata : m.data.values = below ++ [integer limit, integer start])
    (hroom : 2 ≤ m.returns.free) (body : List Node) :
    m.takeBounds.data.values = below ∧
    (∀ (k : Machine) (i : Int), (k.inLoop (integer limit) (integer i)).returns.values =
      k.returns.values ++ [integer limit, integer i]) ∧
    (∀ r, Answers (node lenient · (.loop body)) m r ↔
      Counted body limit (indices start limit) m.takeBounds r) ∧
    (∀ n, Answers (node lenient · (.loop body)) m (.ok () n) → n.returns = m.returns) ∧
    ∀ (k k' : Machine) (i : Int) (name : String),
      Meets body (k.inLoop (integer limit) (integer i)) (.word name) k' →
      k'.word? name = some (.primitive .loopIndex) →
      ∀ r, Answers (node lenient · (.word name)) k' r ↔ r = push (integer i) k' := by
  refine ⟨values_takeBounds hdata, ?_, ?_, ?_, ?_⟩
  · intro k i
    exact values_inLoop _ _ k
  · intro r
    have hinside : 2 ≤ m.takeBounds.returns.free := hroom
    have hloop : ∀ fuel, node lenient (fuel + 1) (.loop body) m =
        running fuel body (integer limit) (integer start) m.takeBounds :=
      fun fuel => node_loop hdata hroom fuel body
    refine (answers_succ rfl).trans ((answers_congr hloop).trans ?_)
    exact running_answers_counted hlimit hne _ rfl hstart hinside
  · rintro n ⟨-, fuel, hfuel⟩
    exact (((carries lenient_carries fuel).1 (.loop body)).returns hfuel).symm
  · intro k k' i name hmeets hword r
    rw [word_answers_primitive hword, hmeets.loopIndex]

/-- From minus one up to one, through a word that asks for the index. -/
theorem counted_loop_runs_body_for_each_index_through_word :
    let m := { Machine.fresh 6 {} .empty with
      data := ⟨[integer (-1), integer 1, .text "below"], 3⟩,
      words := ⟨[("index", [.word "I"])]⟩ }
    let body : List Node := [.word "index"]
    m.takeBounds.data.values = [.text "below"] ∧
    (∃ n, Answers (node lenient · (.loop body)) m (.ok () n) ∧
      Counted body 1 [-1, 0] m.takeBounds (.ok () n) ∧ n.returns = m.returns) ∧
    ∃ k, Meets body (m.takeBounds.inLoop (integer 1) (integer (-1))) (.word "I") k ∧
      Answers (node lenient · (.word "I")) k (push (integer (-1)) k) := by
  intro m body
  have hdata : m.data.values = [.text "below"] ++ [integer 1, integer (-1)] := rfl
  obtain ⟨hbelow, -, houtcome, hreturns, hindex⟩ := counted_loop_runs_body_for_each_index
    (by decide) (by decide) (by decide) hdata (by decide) body
  have hanswer : Answers (node lenient · (.loop body)) m
      (.ok () ((node lenient 9 (.loop body)).after m)) :=
    ⟨isAnswer_ok _ _, 9, eq_ok_of_succeeds (by decide +kernel)⟩
  have hword : (m.takeBounds.inLoop (integer 1) (integer (-1))).word? "index" =
      some (.defined [.word "I"]) := rfl
  have hmeets : Meets body (m.takeBounds.inLoop (integer 1) (integer (-1))) (.word "I") _ :=
    .call hword rfl .here
  exact ⟨hbelow, ⟨_, hanswer, (houtcome _).mp hanswer, hreturns _ hanswer⟩, _, hmeets,
    (hindex _ _ _ _ hmeets rfl _).mpr rfl⟩

end Eval

end DualStack
