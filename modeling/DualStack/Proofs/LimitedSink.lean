/-
A sink that runs full yields a prefix and a clean abort.

A run is compared with the same run on a machine whose sink takes `n` more bytes.
As long as the text printed fits, the second run does what the first does, and only
the room left in its sink differs.  Once a text does not fit, the second run is over:
the sink has kept the part that fitted, and the machine has the data, the words, the
variables and the world that the first run had right before that text was printed,
which is right after `.` popped the value.

Everything but printing is blind to the sink.  So the comparison is an induction on
how the points of the first run come about, and the only case with something to show
is printing itself; the others pass on what is known of their parts
(`Effect.Limited`).  A text may reach the sink in pieces: `Sink.write_pieces` says
that this makes no difference to what the sink keeps, nor to whether it fails.
-/
import DualStack.Proofs.Passage

namespace DualStack

namespace Sink

@[simp] theorem accept_nil (s : Sink) : s.accept [] = s := by
  unfold accept
  cases hroom : s.room <;> simp [← hroom]

theorem accept_accept (a b : List UInt8) (s : Sink) :
    (s.accept a).accept b = s.accept (a ++ b) := by
  unfold accept
  cases s.room with
  | none => simp
  | some room => simp [Nat.sub_sub]

@[simp] theorem contents_accept (bytes : List UInt8) (s : Sink) :
    (s.accept bytes).contents = s.contents ++ bytes := by
  simp [contents, accept]

variable {bytes : List UInt8} {s : Sink}

/-- What fits is accepted. -/
theorem write_fits (hfits : ∀ room ∈ s.room, bytes.length ≤ room) :
    write bytes s = .ok () (s.accept bytes) := by
  unfold write
  cases hroom : s.room with
  | none => rfl
  | some room => exact if_pos (hfits room hroom)

/-- Of what does not fit, a prefix is accepted. -/
theorem write_full {room : Nat} (hroom : s.room = some room) (hfull : room < bytes.length) :
    write bytes s = .error s.full (s.accept (bytes.take room)) := by
  unfold write
  rw [hroom]
  exact if_neg (Nat.not_le_of_lt hfull)

theorem write_append (a b : List UInt8) (s : Sink) :
    EStateM.bind (write a) (fun _ => write b) s = write (a ++ b) s := by
  unfold EStateM.bind
  cases hroom : s.room with
  | none =>
      have hafter : (s.accept a).room = none := by simp [accept, hroom]
      rw [write_fits (by simp [hroom]), write_fits (by simp [hroom])]
      show write b (s.accept a) = _
      rw [write_fits (by simp [hafter]), accept_accept]
  | some room =>
      have hafter : (s.accept a).room = some (room - a.length) := by simp [accept, hroom]
      by_cases hfirst : a.length ≤ room
      · rw [write_fits (by simpa [hroom] using hfirst)]
        show write b (s.accept a) = _
        by_cases hsecond : b.length ≤ room - a.length
        · rw [write_fits (by simpa [hafter] using hsecond),
            write_fits (by simp [hroom]; omega), accept_accept]
        · rw [write_full hafter (by omega), write_full hroom (by simp; omega), accept_accept,
            List.take_append, List.take_of_length_le hfirst]
          rfl
      · rw [write_full hroom (by omega), write_full hroom (by simp; omega), List.take_append,
          Nat.sub_eq_zero_of_le (by omega), List.take_zero, List.append_nil]

/-- Writing the pieces of a text one after the other is writing the text. -/
theorem write_pieces (pieces : List (List UInt8)) :
    ∀ s : Sink, pieces.forM write s = write pieces.flatten s := by
  induction pieces with
  | nil =>
      intro s
      rw [List.flatten_nil, write_fits (by simp), accept_nil]
      rfl
  | cons piece pieces ih =>
      intro s
      have hrest : (fun _ => pieces.forM write : Unit → EStateM Fault Sink Unit) =
          fun _ => write pieces.flatten := by
        funext _ s
        exact ih s
      show EStateM.bind (write piece) (fun _ => pieces.forM write) s = _
      rw [hrest, write_append, List.flatten_cons]

end Sink

namespace Machine

/-- The machine with a sink that takes so many more bytes and then fails. -/
def limit (n : Nat) (full : Fault) (m : Machine) : Machine :=
  { m with sink := { m.sink with room := some n, full := full } }

/-- Somewhere along the machines a value is popped and its text takes the sink past `total`
bytes, and `k` has the data, words, variables and world of the machine in between. -/
def CutAt (machines : List Machine) (total : Nat) (k : Machine) : Prop :=
  ∃ v before popped printed, [before, popped, printed] <:+: machines ∧
    Effect.pop before = .ok v popped ∧
    printed = { popped with sink := popped.sink.accept (Text.bytes v.display) } ∧
    popped.sink.contents.length ≤ total ∧ total < printed.sink.contents.length ∧
    k.data = popped.data ∧ k.words = popped.words ∧ k.slots = popped.slots ∧
    k.world = popped.world

theorem CutAt.mono {machines more : List Machine} {total : Nat} {k : Machine}
    (h : CutAt machines total k) (hmore : machines <:+: more) : CutAt more total k := by
  obtain ⟨v, before, popped, printed, hinfix, hcut⟩ := h
  exact ⟨v, before, popped, printed, hinfix.trans hmore, hcut⟩

end Machine

namespace Effect

open Machine

/-- An unlimited sink takes everything. -/
theorem print_unlimited {m : Machine} (hroom : m.sink.room = none) (bytes : List UInt8) :
    Effect.print bytes m = .ok () { m with sink := m.sink.accept bytes } := by
  unfold Effect.print
  rw [Sink.write_fits (by simp [hroom])]

/-- Popping leaves the sink alone. -/
theorem sink_of_pop {m n : Machine} {v : Value} (hpop : Effect.pop m = .ok v n) :
    n.sink = m.sink := by
  rw [← (Atom.pop.after_sink_depth m).1, after_ok hpop]

/-- From a machine with an unlimited sink the effect prints `w`.  With room for that much it
does the same; with less it aborts where the text printed goes past the limit. -/
structure Limited {α : Type} (e : Effect α) (m : Machine) (machines : List Machine)
    (w : List UInt8) : Prop where
  printed : (e.after m).sink = m.sink.accept w
  fits : ∀ n full, w.length ≤ n →
    e (m.limit n full) = onMachine (limit (n - w.length) full) (e m)
  cut : ∀ n full, n < w.length → ∃ k, e (m.limit n full) = .error (.output full) k ∧
    k.sink.contents = m.sink.contents ++ w.take n ∧
    CutAt machines (m.sink.contents.length + n) k

namespace Limited

variable {α β : Type} {e : Effect α} {f : α → Effect β} {m n : Machine}
  {machines : List Machine} {w w' : List UInt8}

/-- What does not print is not affected by a limit. -/
theorem silent (hsink : (e.after m).sink = m.sink)
    (hsame : ∀ n full, e (m.limit n full) = onMachine (limit n full) (e m)) :
    Limited e m machines [] where
  printed := by rw [hsink, Sink.accept_nil]
  fits := fun n full _ => hsame n full
  cut := by simp

theorem atom (h : Atom e) (m : Machine) : Limited e m machines [] := by
  obtain ⟨hsink, hdepth⟩ := h.after_sink_depth m
  refine silent hsink fun n full => ?_
  have hblind := h.blind m (m.limit n full).sink m.depth
  refine hblind.trans ?_
  cases hm : e m with
  | ok a k =>
      rw [after_ok hm] at hsink hdepth
      simp only [onMachine, limit, hsink, ← hdepth]
  | error reason k =>
      rw [after_error hm] at hsink hdepth
      simp only [onMachine, limit, hsink, ← hdepth]

theorem mono {more : List Machine} (h : Limited e m machines w) (hmore : machines <:+: more) :
    Limited e m more w where
  printed := h.printed
  fits := h.fits
  cut := by
    intro n full hfull
    obtain ⟨k, hrun, hkept, hcut⟩ := h.cut n full hfull
    exact ⟨k, hrun, hkept, hcut.mono hmore⟩

/-- A sequence prints what its parts print, and the limit strikes in one of them. -/
theorem next {a : α} (he : Limited e m machines w) (hok : e m = .ok a n)
    (hf : Limited (f a) n machines w') : Limited (e >>= f) m machines (w ++ w') := by
  have hsink : n.sink = m.sink.accept w := by rw [← he.printed, after_ok hok]
  have hcontents : n.sink.contents = m.sink.contents ++ w := by rw [hsink, Sink.contents_accept]
  have hfirst : ∀ room full, w.length ≤ room →
      (e >>= f) (m.limit room full) = f a (n.limit (room - w.length) full) := by
    intro room full hfits
    refine bind_ok ?_
    rw [he.fits room full hfits, hok]
    rfl
  refine ⟨?_, ?_, ?_⟩
  · rw [after, bind_ok hok, ← Sink.accept_accept, ← hsink]
    exact hf.printed
  · intro room full hfits
    rw [List.length_append] at hfits ⊢
    rw [hfirst room full (by omega), hf.fits _ full (by omega), bind_ok hok, Nat.sub_sub]
  · intro room full hfull
    rw [List.length_append] at hfull
    by_cases hfits : w.length ≤ room
    · obtain ⟨k, hrun, hkept, hcut⟩ := hf.cut (room - w.length) full (by omega)
      refine ⟨k, (hfirst room full hfits).trans hrun, ?_, ?_⟩
      · rw [hkept, hcontents, List.take_append, List.take_of_length_le hfits, List.append_assoc]
      · have htotal : n.sink.contents.length + (room - w.length) =
            m.sink.contents.length + room := by
          rw [hcontents, List.length_append]
          omega
        rw [← htotal]
        exact hcut
    · obtain ⟨k, hrun, hkept, hcut⟩ := he.cut room full (by omega)
      refine ⟨k, bind_error hrun, ?_, hcut⟩
      rw [hkept, List.take_append_of_le_length (by omega)]

/-- A sequence that aborts in its first part. -/
theorem stop {reason : Abort} (he : Limited e m machines w) (herror : e m = .error reason n) :
    Limited (e >>= f) m machines w := by
  refine ⟨?_, ?_, ?_⟩
  · rw [after, bind_error herror, ← he.printed, after_error herror]
  · intro room full hfits
    have hfirst : e (m.limit room full) = .error reason (n.limit (room - w.length) full) := by
      rw [he.fits room full hfits, herror]
      rfl
    rw [bind_error hfirst, bind_error herror]
    rfl
  · intro room full hfull
    obtain ⟨k, hrun, hkept, hcut⟩ := he.cut room full hfull
    exact ⟨k, bind_error hrun, hkept, hcut⟩

/-- The limit strikes where a text is printed: right after its value was popped. -/
theorem print {v : Value} (hroom : m.sink.room = none) (hpop : Effect.pop m = .ok v n) :
    Limited Primitive.printTop m
      [m, n, { n with sink := n.sink.accept (Text.bytes v.display) }] (Text.bytes v.display) := by
  have hsink := sink_of_pop hpop
  have hpopped : ∀ room full, Effect.pop (m.limit room full) = .ok v (n.limit room full) := by
    intro room full
    have hatom : Limited Effect.pop m [] [] := .atom .pop m
    rw [hatom.fits room full (Nat.zero_le _), hpop]
    rfl
  have hprinted : Primitive.printTop m =
      .ok () { n with sink := n.sink.accept (Text.bytes v.display) } :=
    (bind_ok hpop).trans (print_unlimited (hsink ▸ hroom) _)
  refine ⟨?_, ?_, ?_⟩
  · rw [after_ok hprinted, hsink]
  · intro room full hfits
    rw [hprinted, Primitive.printTop, bind_ok (hpopped room full), Effect.print,
      Sink.write_fits (by simpa [limit] using hfits)]
    rfl
  · intro room full hfull
    refine ⟨{ n.limit room full with
      sink := (n.limit room full).sink.accept ((Text.bytes v.display).take room) }, ?_, ?_, ?_⟩
    · rw [Primitive.printTop, bind_ok (hpopped room full), Effect.print,
        Sink.write_full rfl hfull]
      rfl
    · rw [← hsink]
      exact Sink.contents_accept _ _
    · refine ⟨v, m, n, _, List.infix_refl _, hpop, rfl, ?_, ?_, rfl, rfl, rfl, rfl⟩
      · rw [hsink]
        omega
      · rw [Sink.contents_accept, List.length_append, hsink]
        omega

/-- A call prints what its body prints. -/
theorem call {body : Effect Unit} (hroom : m.depth < m.callLimit)
    (hbody : Limited body { m with depth := m.depth + 1 } machines w) :
    Limited (invocation body) m machines w := by
  have hlimited : ∀ room full, invocation body (m.limit room full) =
      Eval.leaveCall body (limit room full { m with depth := m.depth + 1 }) := by
    intro room full
    exact invocation_eq hroom
  refine ⟨?_, ?_, ?_⟩
  · rw [invocation_after hroom]
    exact hbody.printed
  · intro room full hfits
    rw [hlimited, invocation_eq hroom]
    unfold Eval.leaveCall
    rw [hbody.fits room full hfits]
    cases body { m with depth := m.depth + 1 } with
    | ok _ k => rfl
    | error reason k => rfl
  · intro room full hfull
    obtain ⟨k, hrun, hkept, hcut⟩ := hbody.cut room full hfull
    refine ⟨{ k with depth := k.depth - 1 }, ?_, hkept, hcut⟩
    rw [hlimited]
    unfold Eval.leaveCall
    rw [hrun]

end Limited

/-- **A limit on the sink cuts a run off where the text printed goes past it, and is not
noticed otherwise.** -/
theorem Passes.limited {α : Type} {e : Effect α} {m : Machine} {l : List Point}
    (h : Passes e m l) (hroom : m.sink.room = none) :
    ∃ w, Limited e m (m :: Point.machines l) w := by
  induction h with
  | pure a => exact ⟨[], .silent rfl fun _ _ => rfl⟩
  | outOfFuel => exact ⟨[], .silent rfl fun _ _ => rfl⟩
  | atom ha => exact ⟨[], .atom ha _⟩
  | @next _ _ e f m n a l l' hpasses hok _ ihe ihf =>
      obtain ⟨w, hw⟩ := ihe hroom
      have hsink : n.sink = m.sink.accept w := by rw [← hw.printed, after_ok hok]
      obtain ⟨w', hw'⟩ := ihf (by rw [hsink]; simp [Sink.accept, hroom])
      -- The machine in the middle is the last of the first part's.
      obtain ⟨front, hfront⟩ := hpasses.trail.ends
      rw [after_ok hok] at hfront
      have hall : m :: Point.machines (l ++ l') = front ++ n :: Point.machines l' := by
        rw [Point.machines_append, ← List.cons_append, hfront, List.append_assoc]
        rfl
      refine ⟨w ++ w', (hw.mono ?_).next hok (hw'.mono ?_)⟩
      · rw [Point.machines_append]
        exact (List.prefix_append (m :: Point.machines l) _).isInfix
      · rw [hall]
        exact (List.suffix_append front _).isInfix
  | stop _ herror ihe =>
      obtain ⟨w, hw⟩ := ihe hroom
      exact ⟨w, hw.stop herror⟩
  | load _ ih =>
      obtain ⟨w, hw⟩ := ih hroom
      exact ⟨w, hw.printed, hw.fits, hw.cut⟩
  | word _ ih =>
      obtain ⟨w, hw⟩ := ih hroom
      exact ⟨w, hw.printed, hw.fits, hw.cut⟩
  | @print m n v hpop =>
      have hunlimited : n.sink.room = none := by rw [sink_of_pop hpop, hroom]
      have hprinted := after_ok (print_unlimited hunlimited (Text.bytes v.display))
      rw [Point.machines_cons, Point.machines_cons, hprinted]
      exact ⟨_, .print hroom hpop⟩
  | @call body m l hcalls _ ih =>
      obtain ⟨w, hw⟩ := ih hroom
      refine ⟨w, (hw.call hcalls).mono ?_⟩
      rw [Point.machines_cons, Point.machines_append, Point.machines_deeper]
      exact ⟨[m], [(invocation body).after m], by simp⟩
  | refuse hfull =>
      refine ⟨[], .silent ?_ fun room full => ?_⟩
      · rw [after, invocation_refused hfull]
      · rw [invocation_refused hfull]
        exact invocation_refused hfull

end Effect

namespace Machine

/-- Dealing with an abort leaves the sink alone. -/
theorem interpret_sink (fuel : Nat) (nodes : List Node) (m : Machine) :
    ((interpret fuel nodes).after m).sink =
      ((Eval.block Eval.lenient fuel nodes).after m).sink := by
  unfold Effect.after interpret
  cases Eval.block Eval.lenient fuel nodes m with
  | ok _ k => rfl
  | error reason k => rfl

/--
**A sink that runs full yields a prefix and a clean abort.**

On a machine with an unlimited sink a program prints some bytes `w`.  With a sink
that takes `n` bytes it comes to the same outcome on the same machine, apart from
the room left in the sink, if `w` is no longer than that.  If it is longer, the
outcome is an output error, the sink holds the first `n` bytes of `w`, no loop and
no call is left over, and the data, words, variables and world are those of the
unlimited run right after the value was popped whose text goes past the limit,
whatever points that run is seen to pass.  It makes no difference in how many pieces
a text is written.
-/
theorem limited_sink_keeps_first_bytes {m : Machine} (hroom : m.sink.room = none) (fuel : Nat)
    (nodes : List Node) :
    (∃ w, ((interpret fuel nodes).after m).sink.contents = m.sink.contents ++ w ∧
      ∀ n full,
        (w.length ≤ n → interpret fuel nodes (m.limit n full) =
          Effect.onMachine (limit (n - w.length) full) (interpret fuel nodes m)) ∧
        (n < w.length → ∃ k, interpret fuel nodes (m.limit n full) = .error (.output full) k ∧
          k.sink.contents = m.sink.contents ++ w.take n ∧
          k.returns.values = [] ∧ k.depth = 0 ∧
          (∃ points, Effect.Passes (Eval.block Eval.lenient fuel nodes) m points) ∧
          ∀ points, Effect.Passes (Eval.block Eval.lenient fuel nodes) m points →
            CutAt (m :: Point.machines points) (m.sink.contents.length + n) k)) ∧
    (∀ (pieces : List (List UInt8)) (s : Sink),
      pieces.forM Sink.write s = Sink.write pieces.flatten s) := by
  refine ⟨?_, Sink.write_pieces⟩
  obtain ⟨l, hl⟩ := Eval.block_traced fuel nodes m
  obtain ⟨w, hw⟩ := hl.limited hroom
  have hprinted : ((Eval.block Eval.lenient fuel nodes).after m).sink.contents =
      m.sink.contents ++ w := by
    rw [hw.printed, Sink.contents_accept]
  refine ⟨w, ?_, fun n full => ⟨?_, ?_⟩⟩
  · rw [interpret_sink, hprinted]
  · intro hfits
    unfold interpret
    rw [hw.fits n full hfits]
    cases Eval.block Eval.lenient fuel nodes m with
    | ok _ k => rfl
    | error reason k => rfl
  · intro hfull
    obtain ⟨k, hrun, hkept, -⟩ := hw.cut n full hfull
    refine ⟨k.reset, ?_, hkept, rfl, rfl, ⟨l, hl⟩, ?_⟩
    · unfold interpret
      rw [hrun]
    · intro points hpoints
      obtain ⟨w', hw'⟩ := hpoints.limited hroom
      have hsame : w' = w := by
        rw [hw'.printed, Sink.contents_accept] at hprinted
        exact List.append_cancel_left hprinted
      rw [hsame] at hw'
      obtain ⟨k', hrun', -, hcut⟩ := hw'.cut n full hfull
      rw [hrun] at hrun'
      cases hrun'
      exact hcut

/-- A word prints two texts, and the second one does not fit. -/
theorem limited_sink_keeps_first_bytes_second :
    let nodes : List Node := [.definition "show" [.word "."], .text "ab", .word "show",
      .text "cde", .word "show", .text "f", .word "show"]
    let m := fresh 4 {} .empty
    m.sink.room = none ∧ ((interpret 20 nodes).after m).sink.contents = Text.bytes "abcdef" ∧
    (∃ k, interpret 20 nodes (m.limit 3 .nothingAccepted) = .error (.output .nothingAccepted) k ∧
      k.sink.contents = Text.bytes "abc" ∧ k.returns.values = [] ∧
      ∀ points, Effect.Passes (Eval.block Eval.lenient 20 nodes) m points →
        CutAt (m :: Point.machines points) 3 k) ∧
    interpret 20 nodes (m.limit 6 .nothingAccepted) =
      Effect.onMachine (limit 0 .nothingAccepted) (interpret 20 nodes m) := by
  intro nodes m
  have hprinted : ((interpret 20 nodes).after m).sink.contents = Text.bytes "abcdef" := by
    decide +kernel
  obtain ⟨⟨w, hw, hall⟩, -⟩ := limited_sink_keeps_first_bytes (m := m) rfl 20 nodes
  obtain rfl : Text.bytes "abcdef" = w := hprinted.symm.trans hw
  obtain ⟨k, hrun, hkept, hreturns, -, -, hcut⟩ := (hall 3 .nothingAccepted).2 (by decide)
  exact ⟨rfl, hprinted, ⟨k, hrun, hkept, hreturns, hcut⟩, (hall 6 .nothingAccepted).1 (by decide)⟩

end Machine

end DualStack
