/-
What a send tells about what was delivered.

A channel takes bytes write by write, and how each write goes is up to the channel:
`Channel.turn` says it for every coming write, and `Channel.flushFault?` for the coming
flush.  A delivery offers each write what no earlier one has accepted.  `Delivered` says
what is known when it is over: what was accepted, put together, begins the bytes that
were to be delivered, and it is all of them exactly if no write has failed.  A delivery
is put together from three steps, nothing left to write, a write that fails and a write
that does not, and each of them keeps `Delivered`; the loop of a channel is made of these.

A flush is made behind a complete delivery and nowhere else.  So the outcome of a send
is that of the first call that failed, and the two values a program finds above its pipe
tell it (`Effect.reported`).
-/
import DualStack.Proofs.Lifecycle

namespace DualStack

/-! ### How writes go -/

namespace WriteTurn

/-- What a write takes of the bytes it is offered, if it does not fail. -/
def taken (bytes : List UInt8) : WriteTurn → Option (List UInt8)
  | accept limit => some (bytes.take limit)
  | acceptAll => some bytes
  | fail _ => none

/-- Why a delivery ends at a write: the write has failed, or it has taken nothing.  An interrupted
write is made again. -/
def fault? : WriteTurn → Option Fault
  | accept limit => if limit = 0 then some .nothingAccepted else none
  | acceptAll => none
  | fail fault => if fault = .interrupted then none else some fault

end WriteTurn

/-- The bytes that came to a channel by a call. -/
def Call.accepted : Call → List UInt8
  | write (some bytes) => bytes
  | _ => []

/-- The bytes that came to a channel by some calls, one after the other. -/
def accepted (calls : List Call) : List UInt8 :=
  calls.flatMap Call.accepted

namespace Channel

/-- How the coming writes of a channel go, counted from zero. -/
def turn (files : Directory) : Channel → Nat → WriteTurn
  | scripted script, k => script.writes.getD k .acceptAll
  | file path access _, _ =>
    match access, files.entry? path with
    | .writing, some (.file _) => .acceptAll
    | _, _ => .fail (.system .badDescriptor)

/-- How the coming flush of a channel goes. -/
def flushFault? : Channel → Option Fault
  | scripted script => script.flushes.head?.join
  | file _ _ _ => none

end Channel

/-! ### Deliveries -/

theorem accepted_write (outcome : Option (List UInt8)) (calls : List Call) :
    accepted (.write outcome :: calls) = outcome.getD [] ++ accepted calls := by
  cases outcome <;> rfl

/-- A write that ends the delivery takes nothing. -/
theorem WriteTurn.taken_of_fault {turn : WriteTurn} {fault : Fault}
    (h : turn.fault? = some fault) (bytes : List UInt8) : (turn.taken bytes).getD [] = [] := by
  cases turn with
  | accept limit =>
      by_cases hzero : limit = 0
      · rw [hzero]
        rfl
      · rw [fault?, if_neg hzero] at h
        exact absurd h (by simp)
  | acceptAll => exact absurd h (by simp [fault?])
  | fail fault => rfl

/-- What is known of a delivery that is over: the writes that were made, on a channel where the
coming writes go by `turn`, and the fault that ended it, if there was one. -/
structure Delivered (turn : Nat → WriteTurn) (bytes : List UInt8) (writes : List Call)
    (fault : Option Fault) : Prop where
  /-- Each write is offered what is not accepted yet, and goes as its turn says. -/
  offered : ∀ k < writes.length, writes[k]? =
    some (.write ((turn k).taken (bytes.drop (accepted (writes.take k)).length)))
  /-- What is accepted are the first of the bytes. -/
  first : accepted writes <+: bytes
  /-- A delivery that ends early has not delivered everything, and one of its writes is to blame. -/
  failed : ∀ f, fault = some f →
    accepted writes ≠ bytes ∧ ∃ k < writes.length, (turn k).fault? = some f
  /-- Otherwise everything is accepted, and no write has failed. -/
  complete : fault = none →
    accepted writes = bytes ∧ ∀ k < writes.length, (turn k).fault? = none

namespace Delivered

variable {turn : Nat → WriteTurn} {bytes : List UInt8}

/-- There is nothing to be written. -/
theorem nothing (turn : Nat → WriteTurn) : Delivered turn [] [] none where
  offered k hk := absurd hk (by simp)
  first := List.prefix_rfl
  failed f hf := absurd hf (by simp)
  complete _ := ⟨rfl, fun k hk => absurd hk (by simp)⟩

/-- The first write ends the delivery. -/
theorem stop {fault : Fault} (hne : bytes ≠ []) (hfault : (turn 0).fault? = some fault) :
    Delivered turn bytes [.write ((turn 0).taken bytes)] (some fault) := by
  have hnone : accepted [.write ((turn 0).taken bytes)] = [] := by
    rw [accepted_write, WriteTurn.taken_of_fault hfault]
    rfl
  refine ⟨?_, ?_, ?_, ?_⟩
  · intro k hk
    obtain rfl : k = 0 := by simpa using hk
    rfl
  · rw [hnone]
    exact List.nil_prefix
  · intro f hf
    rw [hnone]
    exact ⟨hne.symm, 0, by simp, hfault.trans hf⟩
  · intro hf
    exact absurd hf (by simp)

/-- The first write does not end the delivery, which goes on with what the write has left. -/
theorem next {rest : List UInt8} {writes : List Call} {fault : Option Fault}
    (hfault : (turn 0).fault? = none) (hrest : ((turn 0).taken bytes).getD [] ++ rest = bytes)
    (h : Delivered (fun k => turn (k + 1)) rest writes fault) :
    Delivered turn bytes (.write ((turn 0).taken bytes) :: writes) fault := by
  have hsame : accepted (.write ((turn 0).taken bytes) :: writes) = bytes ↔
      accepted writes = rest := by
    rw [accepted_write]
    exact ⟨fun hall => List.append_cancel_left (hall.trans hrest.symm), fun hall => hall ▸ hrest⟩
  refine ⟨?_, ?_, ?_, ?_⟩
  · intro k hk
    cases k with
    | zero => rfl
    | succ k =>
        have hleft : ∀ n, bytes.drop ((((turn 0).taken bytes).getD []).length + n) =
            rest.drop n := by
          intro n
          generalize ((turn 0).taken bytes).getD [] = front at hrest ⊢
          rw [← hrest, List.drop_length_add_append]
        rw [List.getElem?_cons_succ, h.offered k (by simpa using hk), List.take_succ_cons,
          accepted_write, List.length_append, hleft]
  · have hfirst := (List.prefix_append_right_inj (((turn 0).taken bytes).getD [])).mpr h.first
    rwa [hrest, ← accepted_write] at hfirst
  · intro f hf
    obtain ⟨hless, k, hk, hturn⟩ := h.failed f hf
    exact ⟨fun hall => hless (hsame.mp hall), k + 1, by simpa using hk, hturn⟩
  · intro hf
    obtain ⟨hall, hturns⟩ := h.complete hf
    refine ⟨hsame.mpr hall, ?_⟩
    intro k hk
    cases k with
    | zero => exact hfault
    | succ k => exact hturns k (by simpa using hk)

/-- The first write takes all that there is. -/
theorem all (hturn : turn 0 = .acceptAll) : Delivered turn bytes [.write (some bytes)] none := by
  have hnext : Delivered turn bytes [.write ((turn 0).taken bytes)] none :=
    next (by rw [hturn]; rfl) (by rw [hturn]; exact List.append_nil bytes) (.nothing _)
  rwa [hturn] at hnext

end Delivered

/-- **The writes that a script goes through are a delivery.**  The induction is on the script. -/
theorem Script.deliver_delivered (turns : List WriteTurn) (bytes : List UInt8) :
    Delivered (fun k => turns.getD k .acceptAll) bytes (deliver turns bytes).calls
      (deliver turns bytes).fault := by
  fun_induction deliver turns bytes with
  | case1 turns => exact .nothing _
  | case2 bytes hne => exact .all rfl
  | case3 turns bytes hne => exact .all rfl
  | case4 turns bytes hne => exact .stop hne rfl
  | case5 limit turns bytes hne hlimit later ih =>
      exact .next (if_neg hlimit) (List.take_append_drop limit bytes) ih
  | case6 turns bytes hne later ih => exact .next rfl rfl ih
  | case7 fault turns bytes hne hfault => exact .stop hne (if_neg hfault)

/-! ### Sending -/

namespace Channel

/-- A file either takes all that is written to it or refuses every write. -/
theorem send_file (path : Path) (access : Access) (position : Nat) (files : Directory)
    {bytes : List UInt8} (hne : bytes ≠ []) :
    (turn files (file path access position) 0 = .acceptAll ∧
      (send bytes files (file path access position)).calls = [.write (some bytes), .flush] ∧
      (send bytes files (file path access position)).result = .ok ()) ∨
    (turn files (file path access position) 0 = .fail (.system .badDescriptor) ∧
      (send bytes files (file path access position)).calls = [.write none] ∧
      (send bytes files (file path access position)).result =
        .error (.system .badDescriptor)) := by
  cases access with
  | reading => exact Or.inr (by simp [turn, send, hne])
  | writing =>
      cases hentry : files.entry? path with
      | none => exact Or.inr (by simp [turn, send, hne, hentry])
      | some entry =>
          cases entry with
          | directory => exact Or.inr (by simp [turn, send, hne, hentry])
          | file contents => exact Or.inl (by simp [turn, send, hne, hentry])

/-- A call that failed ends a send, and then it is the last one that was made. -/
theorem send_delivered (channel : Channel) (bytes : List UInt8) (files : Directory) :
    ∃ writes fault, Delivered (channel.turn files) bytes writes fault ∧
      (channel.send bytes files).calls = writes ++ (if fault = none then [.flush] else []) ∧
      (channel.send bytes files).result =
        match fault.or channel.flushFault? with
        | none => .ok ()
        | some f => .error f := by
  cases channel with
  | scripted script =>
      refine ⟨_, _, Script.deliver_delivered script.writes bytes, ?_, ?_⟩
      · unfold send
        dsimp only
        cases (Script.deliver script.writes bytes).fault with
        | none => rfl
        | some fault => exact (List.append_nil _).symm
      · unfold send flushFault?
        dsimp only
        cases (Script.deliver script.writes bytes).fault with
        | some fault => rfl
        | none =>
            cases script.flushes with
            | nil => rfl
            | cons flush flushes => cases flush <;> rfl
  | file path access position =>
      by_cases hempty : bytes = []
      · rw [hempty]
        exact ⟨[], none, .nothing _, rfl, rfl⟩
      · rcases send_file path access position files hempty with
          ⟨hturn, hcalls, hresult⟩ | ⟨hturn, hcalls, hresult⟩
        · exact ⟨_, _, .all hturn, hcalls, hresult⟩
        · have hstop := Delivered.stop hempty (congrArg WriteTurn.fault? hturn)
          rw [hturn] at hstop
          exact ⟨_, _, hstop, hcalls, hresult⟩

end Channel

/-! ### What a program is told -/

namespace World

variable {α : Type} {w : World} {id : PipeId} {channel : Channel} {calls : List Call}

/-- The outcome of an act, without the world it leaves behind. -/
def Act.outcome (act : Act α) (w : World) : Except Fault α :=
  match act w with
  | .ok a _ => .ok a
  | .error fault _ => .error fault

theorem exchange_outcome (talk : Directory → Channel → Exchange α)
    (hp : w.pipe? id = some ⟨channel, true, calls⟩) :
    (exchange id talk).outcome w = (talk w.files channel).result := by
  unfold Act.outcome exchange
  rw [hp]
  dsimp only
  cases (talk w.files channel).result with
  | ok a => rfl
  | error fault => rfl

theorem write_outcome (bytes : List UInt8) (hp : w.pipe? id = some ⟨channel, true, calls⟩) :
    (write id bytes).outcome w =
      (channel.send bytes w.files).result.map fun _ => bytes.length := by
  rw [← exchange_outcome (fun files channel => channel.send bytes files) hp]
  show Act.outcome (EStateM.bind _ _) w = _
  unfold Act.outcome EStateM.bind
  cases exchange id (fun files channel => channel.send bytes files) w with
  | ok a w => rfl
  | error fault w => rfl

/-- The pipe behind an exchange: its channel has received the calls that the exchange is made of. -/
theorem exchange_pipe (talk : Directory → Channel → Exchange α)
    (hp : w.pipe? id = some ⟨channel, true, calls⟩) :
    ((exchange id talk).after w).pipe? id =
      some ⟨(talk w.files channel).channel, true, (talk w.files channel).calls.reverse ++ calls⟩ := by
  have hindex : id.index < w.pipes.length := (List.getElem?_eq_some_iff.mp hp).1
  rw [exchange_open talk hp]
  exact List.getElem?_set_self hindex

end World

namespace Effect

variable {m : Machine}

/-- An attempt succeeds in any case. -/
theorem attempt_eq {α : Type} (act : World.Act α) (m : Machine) :
    attempt act m = .ok (act.outcome m.world) { m with world := act.after m.world } := by
  unfold attempt World.Act.outcome World.Act.after
  cases act m.world with
  | ok a w => rfl
  | error fault w => rfl

/-- The values that tell how acting on the world went. -/
def reported : Except Fault (List Value) → List Value
  | .ok values => values ++ [.number 0.0]
  | .error fault => [.text fault.message, .number 1.0]

theorem push_eq (v : Value) (hroom : 0 < m.data.free) :
    push v m = .ok () { m with data := ⟨v :: m.data.items, m.data.free - 1⟩ } := by
  obtain ⟨free, hfree⟩ := Nat.exists_eq_succ_of_ne_zero hroom.ne'
  unfold push onData Stack.push?
  rw [hfree]
  rfl

theorem pushAll_eq (vs : List Value) : ∀ {m : Machine}, vs.length ≤ m.data.free →
    pushAll vs m =
      .ok () { m with data := ⟨vs.reverse ++ m.data.items, m.data.free - vs.length⟩ } := by
  induction vs with
  | nil => exact fun _ => rfl
  | cons v vs ih =>
      intro m hroom
      rw [List.length_cons] at hroom
      rw [pushAll, bind_ok (push_eq v (by omega)), ih (by simp; omega)]
      simp only [List.reverse_cons, List.append_assoc, List.singleton_append, List.length_cons]
      rw [Nat.sub_sub, Nat.add_comm 1]

/-- With room for it, a report stands on top of the stack. -/
theorem report_eq (outcome : Except Fault (List Value))
    (hroom : (reported outcome).length ≤ m.data.free) :
    ∃ data, report outcome m = .ok () { m with data } ∧
      data.values = m.data.values ++ reported outcome := by
  cases outcome with
  | ok values =>
      rw [reported, List.length_append, List.length_singleton] at hroom
      rw [report, bind_ok (pushAll_eq values (by omega)), push_eq _ (by simp; omega)]
      exact ⟨_, rfl, by simp [Stack.values, reported]⟩
  | error fault =>
      have hroom : 2 ≤ m.data.free := hroom
      rw [report, bind_ok (push_eq _ (by omega)), push_eq _ (by simp; omega)]
      exact ⟨_, rfl, by simp [Stack.values, reported]⟩

/-- A report of at most `n` results has a status behind them, or is a message with its status. -/
theorem length_reported_le {α : Type} (outcome : Except Fault α) {results : α → List Value}
    {n : Nat} (hresults : ∀ a, (results a).length ≤ n) (hn : 0 < n) :
    (reported (outcome.map results)).length ≤ n + 1 := by
  cases outcome with
  | ok a =>
      show (results a ++ [_]).length ≤ n + 1
      rw [List.length_append, List.length_singleton]
      exact Nat.succ_le_succ (hresults a)
  | error fault => exact Nat.succ_le_succ hn

/-- What a word does that takes an operand from above a pipe, acts on the world and reports how it
went: the report stands above the pipe. -/
theorem talk_run {α : Type} {id : PipeId} {below : List Value} {v : Value} {n : Nat}
    {word : Value → Effect Unit} (act : World.Act α) (results : α → List Value)
    (hword : ∀ m' : Machine, m'.data.items = .pipe id :: below.reverse →
      word v m' = (do report ((← attempt act).map results) : Effect Unit) m')
    (hresults : ∀ a, (results a).length ≤ n) (hn : 0 < n)
    (hdata : m.data.values = below ++ [.pipe id, v])
    (hroom : below.length + 1 + (n + 1) ≤ m.data.capacity) :
    ∃ data, (pop >>= word) m = .ok () { m with data, world := act.after m.world } ∧
      data.values = below ++ .pipe id :: reported ((act.outcome m.world).map results) := by
  have hitems : m.data.items = v :: .pipe id :: below.reverse := by
    have hreverse := congrArg List.reverse hdata
    simpa [Stack.values] using hreverse
  have hfree : n + 1 ≤ m.data.free + 1 := by
    rw [Stack.capacity, Stack.size, hitems] at hroom
    simp only [List.length_cons, List.length_reverse] at hroom
    omega
  have hlength := length_reported_le (act.outcome m.world) hresults hn
  rw [bind_ok (pop_eq hitems), hword _ rfl, bind_ok (attempt_eq act _)]
  obtain ⟨data, hreport, hvalues⟩ := report_eq
    (m := { m with data := ⟨.pipe id :: below.reverse, m.data.free + 1⟩,
                   world := act.after m.world })
    ((act.outcome m.world).map results) (hlength.trans hfree)
  exact ⟨data, hreport, by simpa [Stack.values] using hvalues⟩

end Effect

/-- The bytes a value is sent as: a text in UTF-8, a blob as it is, and nothing for any other
value. -/
inductive SentAs : Value → List UInt8 → Prop
  | text (s : String) : SentAs (.text s) s.toUTF8.data.toList
  | blob (bytes : List UInt8) : SentAs (.blob bytes) bytes
  | other {v : Value} (htext : ∀ s, v ≠ .text s) (hblob : ∀ bytes, v ≠ .blob bytes) : SentAs v []

theorem sentAs_payload (v : Value) : SentAs v (Primitive.payload v) := by
  cases v with
  | text s =>
      have hbytes : Primitive.payload (.text s) = s.toUTF8.data.toList := by
        show Text.bytes s = s.toByteArray.data.toList
        rw [← String.utf8Encode_toList]
        exact (congrArg Array.toList List.data_toByteArray).symm
      rw [hbytes]
      exact .text s
  | blob bytes => exact .blob bytes
  | _ => exact .other (by simp) (by simp)

/-- What `send` does with a pipe that is open. -/
theorem send_run {m : Machine} {id : PipeId} {channel : Channel} {calls : List Call}
    {below : List Value} {v : Value} (hopen : m.world.pipe? id = some ⟨channel, true, calls⟩)
    (hdata : m.data.values = below ++ [.pipe id, v])
    (hroom : below.length + 3 ≤ m.data.capacity) :
    ∃ data, Primitive.send.run m =
        .ok () { m with data, world := (World.write id (Primitive.payload v)).after m.world } ∧
      data.values = below ++ .pipe id :: Effect.reported
        ((channel.send (Primitive.payload v) m.world.files).result.map fun _ =>
          [.number (.ofNat (Primitive.payload v).length)]) := by
  obtain ⟨data, hrun, hvalues⟩ : ∃ data, Primitive.sendTop m = _ ∧ _ :=
    Effect.talk_run (World.write id (Primitive.payload v)) (fun n => [.number (.ofNat n)])
      (fun _ hitems => Effect.bind_ok (Effect.peek_eq hitems))
      (fun _ => Nat.le_refl 1) Nat.one_pos hdata hroom
  refine ⟨data, hrun, ?_⟩
  rw [hvalues, World.write_outcome _ hopen]
  cases (channel.send (Primitive.payload v) m.world.files).result <;> rfl

/--
**A send tells exactly what was delivered.**

The channel is offered, write by write, what it has not accepted yet, and each write and
the flush go as the channel has it.  What it accepts, put together, begins the bytes the
value is sent as.  Above the pipe the program finds the number of bytes and zero exactly
if all of them were accepted, then one flush was made, and the flush succeeded.
Otherwise it finds the message of a fault and one: that of the flush, or that of a write,
and if a write has failed then no flush is made.
-/
theorem send_tells_what_was_delivered {m : Machine} {id : PipeId} {channel : Channel}
    {calls : List Call} {below : List Value} {v : Value}
    (hopen : m.world.pipe? id = some ⟨channel, true, calls⟩)
    (hdata : m.data.values = below ++ [.pipe id, v])
    (hroom : below.length + 3 ≤ m.data.capacity) :
    ∃ bytes writes flushes n, SentAs v bytes ∧ Primitive.send.run m = .ok () n ∧
      (n.world.pipe? id).map Pipe.log = some (calls.reverse ++ writes ++ flushes) ∧
      (∀ k < writes.length, writes[k]? = some (.write ((channel.turn m.world.files k).taken
        (bytes.drop (accepted (writes.take k)).length)))) ∧
      accepted writes <+: bytes ∧
      (n.data.values = below ++ [.pipe id, .number (.ofNat bytes.length), .number 0.0] ↔
        accepted writes = bytes ∧ flushes = [.flush] ∧ channel.flushFault? = none) ∧
      (¬ (accepted writes = bytes ∧ flushes = [.flush] ∧ channel.flushFault? = none) →
        ∃ fault, n.data.values = below ++ [.pipe id, .text fault.message, .number 1.0] ∧
          (flushes = [.flush] ∧ channel.flushFault? = some fault ∨
            flushes = [] ∧ ∃ k < writes.length,
              (channel.turn m.world.files k).fault? = some fault)) ∧
      ((∃ k < writes.length, (channel.turn m.world.files k).fault? ≠ none) → flushes = []) := by
  obtain ⟨writes, fault, hdelivered, hcalls, hresult⟩ :=
    channel.send_delivered (Primitive.payload v) m.world.files
  obtain ⟨data, hrun, hvalues⟩ := send_run hopen hdata hroom
  have hlog : (((World.write id (Primitive.payload v)).after m.world).pipe? id).map Pipe.log =
      some (calls.reverse ++ writes ++ if fault = none then [.flush] else []) := by
    rw [World.write_after, World.exchange_pipe _ hopen, Option.map_some, Pipe.log, hcalls]
    simp
  refine ⟨_, writes, _, _, sentAs_payload v, hrun, hlog, hdelivered.offered, hdelivered.first, ?_⟩
  rw [hresult] at hvalues
  -- the three ways a send can end
  cases fault with
  | some fault =>
      have hvalues : data.values = below ++ [.pipe id, .text fault.message, .number 1.0] := hvalues
      obtain ⟨hless, hblame⟩ := hdelivered.failed fault rfl
      rw [hvalues]
      refine ⟨?_, fun _ => ⟨fault, rfl, Or.inr ⟨rfl, hblame⟩⟩, fun _ => rfl⟩
      exact ⟨fun h => absurd h (by simp), fun h => absurd h.1 hless⟩
  | none =>
      obtain ⟨hall, hturns⟩ := hdelivered.complete rfl
      cases hflush : channel.flushFault? with
      | some fault =>
          rw [hflush] at hvalues
          have hvalues : data.values = below ++ [.pipe id, .text fault.message, .number 1.0] :=
            hvalues
          rw [hvalues]
          refine ⟨?_, fun _ => ⟨fault, rfl, Or.inl ⟨rfl, rfl⟩⟩, ?_⟩
          · exact ⟨fun h => absurd h (by simp), fun h => absurd h.2.2 (by simp)⟩
          · rintro ⟨k, hk, hfault⟩
            exact absurd (hturns k hk) hfault
      | none =>
          rw [hflush] at hvalues
          refine ⟨⟨fun _ => ⟨hall, rfl, rfl⟩, fun _ => hvalues⟩, ?_, ?_⟩
          · exact fun hnot => absurd ⟨hall, rfl, rfl⟩ hnot
          · rintro ⟨k, hk, hfault⟩
            exact absurd (hturns k hk) hfault

/-- Three of four bytes arrive, in two writes with an interruption between them, and then the
channel breaks down. -/
theorem send_tells_what_was_delivered_broken_off :
    let channel := Channel.scripted
      { writes := [.accept 2, .fail .interrupted, .accept 1, .fail (.reported "broken")] }
    let m := { Machine.fresh 4 {} (.around [channel] .empty {}) with
      data := ⟨[.text "né!", .pipe ⟨0⟩, .nil], 1⟩ }
    m.world.pipe? ⟨0⟩ = some ⟨channel, true, []⟩ ∧
    m.data.values = [.nil] ++ [.pipe ⟨0⟩, .text "né!"] ∧ [Value.nil].length + 3 ≤ m.data.capacity ∧
    ∃ n fault, Primitive.send.run m = .ok () n ∧
      (n.world.pipe? ⟨0⟩).map (accepted ∘ Pipe.log) = some [0x6e, 0xc3, 0xa9] ∧
      n.data.values = [.nil, .pipe ⟨0⟩, .text (Fault.message fault), .number 1.0] := by
  intro channel m
  have hopen : m.world.pipe? ⟨0⟩ = some ⟨channel, true, []⟩ := rfl
  have hdata : m.data.values = [.nil] ++ [.pipe ⟨0⟩, .text "né!"] := rfl
  refine ⟨hopen, hdata, by decide, ?_⟩
  obtain ⟨bytes, writes, flushes, n, -, hrun, -, -, -, hcounted, hfaulted, -⟩ :=
    send_tells_what_was_delivered hopen hdata (by decide)
  cases hrun
  have hnot : ¬ (accepted writes = bytes ∧ flushes = [.flush] ∧ channel.flushFault? = none) :=
    fun h => absurd (hcounted.mpr h) (by simp [Stack.values])
  obtain ⟨fault, hvalues, -⟩ := hfaulted hnot
  exact ⟨_, fault, rfl, by decide, hvalues⟩

end DualStack
