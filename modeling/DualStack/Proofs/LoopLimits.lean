/-
Which loops come to their end.

The body of a loop cannot change its index or its limit, so if it never aborts the
loop comes to its end exactly if counting up from the start comes past the limit.
For a limit other than zero that sounds like a matter of course, and it is one as
long as the index grows.  It is a double, and beyond `2 ^ 53` doubles lie too far
apart for adding one to make a difference: an index that gets there below its limit
stays there, and the loop goes on for ever.

`Binary.exists_not_lt_iff` says which starts and limits those are.
-/
import DualStack.Proofs.CountedLoops
import DualStack.Proofs.Increments

namespace DualStack

namespace Eval

open Effect Machine Binary

section Passing

variable {m : Machine} {limit index : Float} {body : List Node}

/-- The body succeeds in every round that the loop comes to. -/
def RoundsSucceed (body : List Node) (limit index : Value) (m : Machine) : Prop :=
  ∀ k, Enters body limit index m k → ∃ n, Answers (block lenient · body) k (.ok () n)

/-- A loop goes on below its limit. -/
theorem goesOn_below (hlt : index < limit) :
    goesOn (.number limit) (.number index) = some index := by
  simp [goesOn, hlt]

/-- A limit other than zero stops a loop that has reached it. -/
theorem goesOn_past (hne : (limit == 0.0) = false) (hpast : ¬ index < limit) :
    goesOn (.number limit) (.number index) = none := by
  simp [goesOn, hne, hpast]

/-- A round below the limit succeeds, and so do the rounds after it. -/
theorem RoundsSucceed.next (hlt : index < limit)
    (hbody : RoundsSucceed body (.number limit) (.number index) m) :
    ∃ k, k.returns = m.returns ∧
      Answers (round · body (.number limit) (.number index)) m (.ok () k) ∧
      RoundsSucceed body (.number limit) (.number (index + 1.0)) k := by
  have hgoes := goesOn_below hlt
  obtain ⟨k, hk⟩ := hbody _ (.now hgoes)
  have hround := round_answers_ok.mpr ⟨k, hk, rfl⟩
  exact ⟨{ k with returns := m.returns }, rfl, hround,
    fun l hl => hbody l (.later hgoes hround hl)⟩

/-- **A loop succeeds if its body always does and counting up comes past its limit.** -/
theorem running_succeeds_of_countUp (hne : (limit == 0.0) = false) (n : Nat) :
    ∀ {m : Machine} {index : Float}, 2 ≤ m.returns.free →
      RoundsSucceed body (.number limit) (.number index) m → ¬ countUp index n < limit →
      ∃ k, Answers (running · body (.number limit) (.number index)) m (.ok () k) := by
  induction n with
  | zero =>
      intro m index hroom _ hpast
      exact ⟨m, (running_answers_over hroom (goesOn_past hne hpast)).mpr rfl⟩
  | succ n ih =>
      intro m index hroom hbody hpast
      by_cases hlt : index < limit
      · obtain ⟨k, hreturns, hround, hlater⟩ := hbody.next hlt
        obtain ⟨k', hrest⟩ := ih (hreturns ▸ hroom) hlater hpast
        exact ⟨k', (running_answers_goesOn hroom (goesOn_below hlt)).mpr
          (Or.inl ⟨k, hround, hrest⟩)⟩
      · exact ⟨m, (running_answers_over hroom (goesOn_past hne hlt)).mpr rfl⟩

/-- A loop whose body always succeeds comes to every index that counting up comes to below its
limit. -/
theorem enters_countUp (n : Nat) : ∀ {m : Machine} {index : Float},
    RoundsSucceed body (.number limit) (.number index) m → (∀ i ≤ n, countUp index i < limit) →
    ∃ k : Machine, Enters body (.number limit) (.number index) m
      (k.inLoop (.number limit) (.number (countUp index n))) := by
  induction n with
  | zero =>
      intro m index _ hbelow
      exact ⟨m, .now (goesOn_below (hbelow 0 le_rfl))⟩
  | succ n ih =>
      intro m index hbody hbelow
      have hlt : index < limit := hbelow 0 (Nat.zero_le _)
      obtain ⟨k, -, hround, hlater⟩ := hbody.next hlt
      obtain ⟨k', henters⟩ := ih hlater fun i hi => hbelow (i + 1) (Nat.succ_le_succ hi)
      exact ⟨k', .later (goesOn_below hlt) hround henters⟩

/-- Only by coming past its limit does a loop succeed. -/
theorem countUp_of_running (hroom : 2 ≤ m.returns.free)
    {fuel : Nat} {k : Machine}
    (h : running fuel body (.number limit) (.number index) m = .ok () k) :
    ∃ n, ¬ countUp index n < limit := by
  by_contra hbelow
  push Not at hbelow
  refine running_never_over (P := fun i => ∀ n, countUp i n < limit) ?_ ?_ body k fuel hbelow
    hroom h
  · intro i hi
    exact goesOn_below (hi 0)
  · intro i hi n
    exact hi (n + 1)

/-- A loop whose body always succeeds does not abort. -/
theorem running_not_error (hroom : 2 ≤ m.returns.free)
    (hbody : RoundsSucceed body (.number limit) (.number index) m) {reason : Abort} {k : Machine} :
    ¬ Answers (running · body (.number limit) (.number index)) m (.error reason k) := by
  rintro ⟨hanswer, fuel, hfuel⟩
  obtain ⟨l, henters, haborts⟩ :=
    body_aborts_of_running (isAnswer_error.mp hanswer) fuel hroom hfuel
  obtain ⟨n, hsucceeds⟩ := hbody l henters
  exact absurd (haborts.unique (block_steady lenient body) hsucceeds) (by simp)

end Passing

section Entered

variable {m : Machine} {limit start : Float} {below : List Value} {body : List Node}

/-- A loop whose body always succeeds succeeds or has no end, once it is entered. -/
theorem loop_succeeds_of_answers (hdata : m.data.values = below ++ [.number limit, .number start])
    (hroom : 2 ≤ m.returns.free)
    (hbody : RoundsSucceed body (.number limit) (.number start) m.takeBounds)
    {r : EStateM.Result Abort Machine Unit} (h : Answers (node lenient · (.loop body)) m r) :
    ∃ k, r = .ok () k ∧
      Answers (running · body (.number limit) (.number start)) m.takeBounds (.ok () k) := by
  have hloop := fun fuel => node_loop hdata hroom fuel body
  have hrunning := (answers_congr hloop).mp ((answers_succ rfl).mp h)
  cases r with
  | ok _ k => exact ⟨k, rfl, hrunning⟩
  | error reason k => exact absurd hrunning (running_not_error (m := m.takeBounds) hroom hbody)

/-- **A loop whose body always succeeds ends exactly if it cannot be entered or counting up comes
past its limit.** -/
theorem loop_ends_iff_countUp (hdata : m.data.values = below ++ [.number limit, .number start])
    (hne : (limit == 0.0) = false)
    (hbody : RoundsSucceed body (.number limit) (.number start) m.takeBounds) :
    Ends (node lenient · (.loop body)) m ↔
      m.returns.free < 2 ∨ ∃ n, ¬ countUp start n < limit := by
  constructor
  · rintro ⟨r, hr⟩
    rcases Nat.lt_or_ge m.returns.free 2 with hfull | hroom
    · exact Or.inl hfull
    · obtain ⟨k, -, -, fuel, hfuel⟩ := loop_succeeds_of_answers hdata hroom hbody hr
      exact Or.inr (countUp_of_running (m := m.takeBounds) hroom hfuel)
  · intro h
    rcases Nat.lt_or_ge m.returns.free 2 with hfull | hroom
    · obtain ⟨k, henter⟩ := enterLoop_full hdata hfull
      exact ⟨_, isAnswer_error.mpr (by simp), 1, bind_error henter⟩
    · obtain ⟨n, hn⟩ := h.resolve_left (by omega)
      obtain ⟨k, hk⟩ := running_succeeds_of_countUp hne n (m := m.takeBounds) hroom hbody hn
      have hloop := fun fuel => node_loop hdata hroom fuel body
      exact ⟨_, (answers_succ rfl).mpr ((answers_congr hloop).mpr hk)⟩

/--
**When a limit other than zero ends a loop.**

Let the limit be finite and not zero, the start be finite, and the body succeed in every
round the loop comes to.  A loop for whose bounds the return stack has no room fails at
once.  Any other ends exactly if the start is not below the limit, or the index after it
is not, or the start is at least `-(2 ^ 53 + 2)` and the limit at most `2 ^ 53`; and then
it succeeds.  In every other case the index of the loop comes to a double below the limit
that adding one does not change.
-/
theorem nonzero_limit_ends_loop_iff
    (hdata : m.data.values = below ++ [.number limit, .number start])
    (hlimit : limit.isFinite = true) (hstart : start.isFinite = true)
    (hne : (limit == 0.0) = false)
    (hbody : ∀ k, Enters body (.number limit) (.number start) m.takeBounds k →
      ∃ n, Answers (block lenient · body) k (.ok () n)) :
    (Ends (node lenient · (.loop body)) m ↔
      m.returns.free < 2 ∨ ¬ start < limit ∨ ¬ start + 1.0 < limit ∨
        -9007199254740994.0 ≤ start ∧ limit ≤ 9007199254740992.0) ∧
    (2 ≤ m.returns.free → ∀ r, Answers (node lenient · (.loop body)) m r → ∃ n, r = .ok () n) ∧
    (¬ Ends (node lenient · (.loop body)) m → ∃ (n : Nat) (k : Machine),
      Enters body (.number limit) (.number start) m.takeBounds
        (k.inLoop (.number limit) (.number (countUp start n))) ∧
      countUp start n < limit ∧ countUp start n + 1.0 = countUp start n) := by
  refine ⟨?_, ?_, ?_⟩
  · rw [loop_ends_iff_countUp hdata hne hbody, countUp_passes_iff hstart hlimit]
  · intro hroom r hr
    obtain ⟨n, hn, -⟩ := loop_succeeds_of_answers hdata hroom hbody hr
    exact ⟨n, hn⟩
  · intro hnever
    rw [loop_ends_iff_countUp hdata hne hbody] at hnever
    push Not at hnever
    obtain ⟨-, hbelow⟩ := hnever
    obtain ⟨n, hstuck⟩ := exists_countUp_stuck hstart
    obtain ⟨k, henters⟩ := enters_countUp n hbody fun i _ => hbelow i
    exact ⟨n, k, henters, hbelow n, hstuck⟩

/-- A body that only defines a word succeeds on every machine. -/
theorem definition_succeeds (name : String) (words : List Node) (k : Machine) :
    ∃ n, Answers (block lenient · [.definition name words]) k (.ok () n) :=
  ⟨_, isAnswer_ok _ _, 2, rfl⟩

/-- From the least double that counting up leads on from, a loop comes to one half after more than
`2 ^ 53` rounds; from the next double below it, never, as there it gets stuck. -/
theorem nonzero_limit_ends_loop_iff_edge :
    let m := { Machine.fresh 2 {} .empty with
      data := ⟨[.number (-9007199254740994.0), .number 0.5], 0⟩ }
    let m' := { Machine.fresh 2 {} .empty with
      data := ⟨[.number (-9007199254740996.0), .number 0.5], 0⟩ }
    let body : List Node := [.definition "round" []]
    (∃ n, Answers (node lenient · (.loop body)) m (.ok () n)) ∧
    ¬ Ends (node lenient · (.loop body)) m' ∧
    ∃ n, countUp (-9007199254740996.0) n < 0.5 ∧
      countUp (-9007199254740996.0) n + 1.0 = countUp (-9007199254740996.0) n := by
  intro m m' body
  have hdata : m.data.values = [] ++ [.number 0.5, .number (-9007199254740994.0)] := rfl
  have hdata' : m'.data.values = [] ++ [.number 0.5, .number (-9007199254740996.0)] := rfl
  have hbody : ∀ k, ∃ n, Answers (block lenient · body) k (.ok () n) :=
    definition_succeeds "round" []
  obtain ⟨hends, hsucceeds, -⟩ := nonzero_limit_ends_loop_iff hdata (by decide +kernel)
    (by decide +kernel) (by decide +kernel) fun k _ => hbody k
  obtain ⟨hends', -, hstuck⟩ := nonzero_limit_ends_loop_iff hdata' (by decide +kernel)
    (by decide +kernel) (by decide +kernel) fun k _ => hbody k
  have hnever : ¬ Ends (node lenient · (.loop body)) m' := by
    rw [hends']
    decide +kernel
  refine ⟨?_, hnever, ?_⟩
  · obtain ⟨r, hr⟩ := hends.mpr (by decide +kernel)
    obtain ⟨n, rfl⟩ := hsucceeds (by decide) r hr
    exact ⟨n, hr⟩
  · obtain ⟨n, -, -, hlt, hstay⟩ := hstuck hnever
    exact ⟨n, hlt, hstay⟩

end Entered

/-- A limit that is finite and not zero, and a body that does nothing: the index of the second
round is that of the first, and the loop has no end. -/
theorem nonzero_limit_does_not_end_loop :
    let m := { Machine.fresh 2 {} .empty with
      data := ⟨[.number 9007199254740992.0, .number 9007199254740996.0], 0⟩ }
    m.data.values = [.number 9007199254740996.0, .number 9007199254740992.0] ∧
    (9007199254740996.0 : Float).isFinite = true ∧ (9007199254740992.0 : Float).isFinite = true ∧
    ((9007199254740996.0 : Float) == 0.0) = false ∧
    (∀ k, ∃ n, Answers (block lenient · []) k (.ok () n)) ∧
    ¬ Ends (node lenient · (.loop [])) m := by
  intro m
  have hdata : m.data.values = [] ++ [.number 9007199254740996.0, .number 9007199254740992.0] :=
    rfl
  have hbody : ∀ k, ∃ n, Answers (block lenient · []) k (.ok () n) := fun k =>
    ⟨k, block_answers_nil.mpr rfl⟩
  have hne : ((9007199254740996.0 : Float) == 0.0) = false := by decide +kernel
  refine ⟨hdata, by decide +kernel, by decide +kernel, hne, hbody, ?_⟩
  rw [loop_ends_iff_countUp hdata hne fun k _ => hbody k]
  rintro (hfull | ⟨n, hn⟩)
  · exact absurd hfull (by decide)
  · have hstay : (9007199254740992.0 : Float) + 1.0 = 9007199254740992.0 := by decide +kernel
    cases n with
    | zero => exact hn (by decide +kernel)
    | succ n =>
        rw [countUp_settled (by rw [hstay, hstay])] at hn
        exact hn (by decide +kernel)

end Eval

end DualStack
