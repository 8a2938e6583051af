/-
The lifecycle of a pipe.

A pipe is known by its name, and all its copies carry that name, so it makes no
difference through which of them it is used.  What can happen to a pipe is said once,
by `Pipe.Turn`: its channel is talked to, or it is closed, and for either it must be
open.  An operation on the world does one of these to a single pipe, or makes a new
pipe, or leaves all pipes alone (`World.Operation.change`).  From that it follows by
induction along any history of worlds that a close is the last call a channel
receives, and that a pipe once closed never changes again.

Two kinds of history are such.  Code that holds handles on pipes makes one request
after the other through them and copies them (`Handles.history`).  Programs copy pipes
about on the stack, in variables and in collections; how they do it does not matter,
because from point to point of their run at most one operation happens to the world
(`Machine.exists_orderly`).
-/
import DualStack.Proofs.Uses
import Mathlib.Data.List.Chain

namespace DualStack

/-! ### One pipe -/

namespace Pipe

/-- The calls the channel received, oldest first. -/
def log (p : Pipe) : List Call :=
  p.calls.reverse

/-- An open pipe around a channel that has received no call. -/
def fresh (channel : Channel) : Pipe :=
  ⟨channel, true, []⟩

/-- There is no close in the log of an open pipe; that of a closed one has a single close, at its
end. -/
def ClosedLast (p : Pipe) : Prop :=
  ∃ earlier, Call.close ∉ earlier ∧ p.log = earlier ++ if p.isOpen then [] else [.close]

/-- What can happen to a pipe. -/
inductive Turn : Pipe → Pipe → Prop
  | talk {channel channel' : Channel} {calls new : List Call} (hnew : Call.close ∉ new) :
      Turn ⟨channel, true, calls⟩ ⟨channel', true, new ++ calls⟩
  | close {channel : Channel} {calls : List Call} :
      Turn ⟨channel, true, calls⟩ ⟨channel, false, .close :: calls⟩

theorem closedLast_fresh (channel : Channel) : ClosedLast (fresh channel) :=
  ⟨[], by simp, rfl⟩

theorem Turn.isOpen {p p' : Pipe} (h : Turn p p') : p.isOpen = true := by
  cases h with
  | talk => rfl
  | close => rfl

theorem ClosedLast.turn {p p' : Pipe} (hp : p.ClosedLast) (h : Turn p p') : p'.ClosedLast := by
  obtain ⟨earlier, hearlier, hlog⟩ := hp
  cases h with
  | @talk channel channel' calls new hnew =>
      have hcalls : calls.reverse = earlier := by simpa [log] using hlog
      refine ⟨earlier ++ new.reverse, ?_, ?_⟩
      · simp [hearlier, hnew]
      · simp [log, hcalls]
  | @close channel calls =>
      have hcalls : calls.reverse = earlier := by simpa [log] using hlog
      exact ⟨earlier, hearlier, by simp [log, hcalls]⟩

end Pipe

/-! ### Talking is not closing -/

theorem Script.close_notMem_deliver (turns : List WriteTurn) (bytes : List UInt8) :
    Call.close ∉ (deliver turns bytes).calls := by
  fun_induction deliver turns bytes with
  | case1 => simp
  | case2 => simp
  | case3 => simp
  | case4 => simp
  | case5 _ _ _ _ _ later ih => simpa using ih
  | case6 _ _ _ later ih => simpa using ih
  | case7 => simp

theorem Channel.close_notMem_send (bytes : List UInt8) (files : Directory) (channel : Channel) :
    Call.close ∉ (channel.send bytes files).calls := by
  cases channel with
  | scripted script =>
      have hdeliver := Script.close_notMem_deliver script.writes bytes
      unfold send
      dsimp only
      split
      · exact hdeliver
      · simpa using hdeliver
  | file path access position =>
      unfold send
      dsimp only
      split
      · simp
      · split
        · simp
        · simp

theorem Channel.close_notMem_read (room : Nat) (files : Directory) (channel : Channel) :
    Call.close ∉ (channel.read room files).calls := by
  cases channel with
  | scripted script =>
      unfold read
      dsimp only
      split
      · simp
      · simp
      · simp
  | file path access position =>
      unfold read
      dsimp only
      split
      · simp
      · simp
      · simp

/-! ### One operation -/

namespace World

variable {α : Type} {w w' : World} {id : PipeId} {act : Act α}

theorem Act.after_error {fault : Fault} (h : act w = .error fault w') : act.after w = w' := by
  rw [Act.after, h]

section Pipes

variable {channel : Channel} {calls : List Call}

/-- A pipe is open, with a channel and its calls, or it is not open. -/
theorem open_or_closed (w : World) (id : PipeId) :
    (∃ channel calls, w.pipe? id = some ⟨channel, true, calls⟩) ∨ w.isOpen id = false := by
  unfold isOpen
  cases w.pipe? id with
  | none => exact Or.inr rfl
  | some p =>
      obtain ⟨channel, isOpen, calls⟩ := p
      cases isOpen with
      | true => exact Or.inl ⟨channel, calls, rfl⟩
      | false => exact Or.inr rfl

/-- A pipe that is not open has been closed or was never made. -/
theorem closed_or_unknown (h : w.isOpen id = false) :
    (∃ channel calls, w.pipe? id = some ⟨channel, false, calls⟩) ∨ w.pipe? id = none := by
  unfold isOpen at h
  cases hp : w.pipe? id with
  | none => exact Or.inr rfl
  | some p =>
      obtain ⟨channel, isOpen, calls⟩ := p
      rw [hp] at h
      obtain rfl : isOpen = false := h
      exact Or.inl ⟨channel, calls, rfl⟩

theorem exchange_closed (talk : Directory → Channel → Exchange α) (h : w.isOpen id = false) :
    exchange id talk w = .error .closed w := by
  unfold exchange
  rcases closed_or_unknown h with ⟨channel, calls, hp⟩ | hp
  · rw [hp]
  · rw [hp]

theorem exchange_open (talk : Directory → Channel → Exchange α)
    (hp : w.pipe? id = some ⟨channel, true, calls⟩) :
    (exchange id talk).after w =
      { w with
        pipes := w.pipes.set id.index ⟨(talk w.files channel).channel, true,
          (talk w.files channel).calls.reverse ++ calls⟩
        files := (talk w.files channel).files } := by
  unfold Act.after exchange
  rw [hp]
  dsimp only
  cases (talk w.files channel).result with
  | ok a => rfl
  | error fault => rfl

theorem write_after (id : PipeId) (bytes : List UInt8) (w : World) :
    (write id bytes).after w =
      (exchange id fun files channel => channel.send bytes files).after w := by
  show Act.after (EStateM.bind _ _) w = _
  unfold Act.after EStateM.bind
  cases exchange id (fun files channel => channel.send bytes files) w with
  | ok _ _ => rfl
  | error _ _ => rfl

theorem close_after (hp : w.pipe? id = some ⟨channel, true, calls⟩) :
    (close id).after w =
      { w with pipes := w.pipes.set id.index ⟨channel, false, .close :: calls⟩ } := by
  unfold Act.after World.close
  rw [hp]
  dsimp only
  cases channel.close with
  | ok _ => rfl
  | error fault => rfl

end Pipes

namespace Through

/-- **Nothing gets through a pipe that is not open**, and the world stays as it is. -/
theorem refused (hact : Through id act) (h : w.isOpen id = false) :
    act w = .error .closed w := by
  cases hact with
  | write bytes =>
      -- A write is an exchange and then the number of bytes, which is not reached.
      show EStateM.bind _ _ w = _
      rw [EStateM.bind, exchange_closed _ h]
  | read room => exact exchange_closed _ h
  | close =>
      unfold World.close
      rcases closed_or_unknown h with ⟨channel, calls, hp⟩ | hp
      · rw [hp]
      · rw [hp]

/-- What is done through an open pipe happens to that pipe. -/
theorem turn (hact : Through id act) {channel : Channel} {calls : List Call}
    (hp : w.pipe? id = some ⟨channel, true, calls⟩) :
    ∃ p', Pipe.Turn ⟨channel, true, calls⟩ p' ∧ (act.after w).pipes = w.pipes.set id.index p' := by
  cases hact with
  | write bytes =>
      rw [write_after, exchange_open _ hp]
      refine ⟨_, .talk ?_, rfl⟩
      simpa using Channel.close_notMem_send bytes w.files channel
  | read room =>
      rw [World.read, exchange_open _ hp]
      refine ⟨_, .talk ?_, rfl⟩
      simpa using Channel.close_notMem_read room w.files channel
  | close =>
      rw [close_after hp]
      exact ⟨_, .close, rfl⟩

/-- What is done through one pipe does not touch another. -/
theorem apart (hact : Through id act) (w : World) {other : PipeId} (hne : other ≠ id) :
    (act.after w).pipe? other = w.pipe? other := by
  rcases open_or_closed w id with ⟨channel, calls, hp⟩ | hclosed
  · obtain ⟨p', -, hpipes⟩ := hact.turn hp
    have hindex : id.index ≠ other.index := fun h => hne (congrArg PipeId.mk h.symm)
    rw [pipe?, hpipes, List.getElem?_set_ne hindex]
    rfl
  · rw [Act.after_error (hact.refused hclosed)]

end Through

/-- A pipe is closed after a close, also if it was not open before or its channel has failed to
close. -/
theorem isOpen_close (w : World) (id : PipeId) : ((close id).after w).isOpen id = false := by
  rcases open_or_closed w id with ⟨channel, calls, hp⟩ | hclosed
  · have hindex : id.index < w.pipes.length := (List.getElem?_eq_some_iff.mp hp).1
    rw [close_after hp, isOpen, pipe?, List.getElem?_set_self hindex]
    rfl
  · rw [Act.after_error (Through.close.refused hclosed)]
    exact hclosed

/-- What can happen to the pipes of a world in one operation. -/
inductive Change (w w' : World) : Prop
  | still (hpipes : w'.pipes = w.pipes)
  | turn (id : PipeId) {p p' : Pipe} (hp : w.pipe? id = some p) (hturn : p.Turn p')
      (hpipes : w'.pipes = w.pipes.set id.index p')
  | attach (channel : Channel) (hpipes : w'.pipes = w.pipes ++ [.fresh channel])

/-- **An operation does something to one pipe, or makes a pipe, or leaves all pipes alone.** -/
theorem Operation.change (h : Operation act) (w : World) : Change w (act.after w) := by
  cases h with
  | @through _ id _ hact =>
      rcases open_or_closed w id with ⟨channel, calls, hp⟩ | hclosed
      · obtain ⟨p', hturn, hpipes⟩ := hact.turn hp
        exact .turn id hp hturn hpipes
      · rw [Act.after_error (hact.refused hclosed)]
        exact .still rfl
  | openFile path =>
      unfold Act.after World.openFile
      cases w.files.locate path with
      | ok found => exact .attach (.file found.1 .reading 0) rfl
      | error fault => exact .still rfl
  | createFile path =>
      unfold Act.after World.createFile
      cases w.files.create path with
      | ok made => exact .attach (.file made.1 .writing 0) rfl
      | error fault => exact .still rfl
  | dial protocol address =>
      unfold Act.after World.dial
      cases Network.dial w.files protocol address w.network with
      | ok script network => exact .attach (.scripted script) rfl
      | error fault network => exact .still rfl

theorem Turn.change (h : Turn w w') : Change w w' := by
  cases h with
  | stay => exact .still rfl
  | operation hact => exact hact.change w

/-! ### A history of operations -/

/-- Every pipe that is closed in the first world is just the same in the second. -/
def Settled (w w' : World) : Prop :=
  ∀ id p, w.pipe? id = some p → p.isOpen = false → w'.pipe? id = some p

instance : IsTrans World Settled where
  trans _ _ _ h h' id p hp hclosed := h' id p (h id p hp hclosed) hclosed

theorem Change.settled (h : Change w w') : Settled w w' := by
  intro id p hp hclosed
  cases h with
  | still hpipes =>
      rw [pipe?, hpipes]
      exact hp
  | turn id' hp' hturn hpipes =>
      -- Something happens to an open pipe only, so not to this one.
      have hindex : id'.index ≠ id.index := by
        intro heq
        have hsame : w.pipe? id = w.pipe? id' := by rw [pipe?, pipe?, heq]
        rw [hsame, hp'] at hp
        cases hp
        exact absurd hturn.isOpen (by simp [hclosed])
      rw [pipe?, hpipes, List.getElem?_set_ne hindex]
      exact hp
  | attach channel hpipes =>
      have hindex : id.index < w.pipes.length := (List.getElem?_eq_some_iff.mp hp).1
      rw [pipe?, hpipes, List.getElem?_append_left hindex]
      exact hp

theorem Change.closedLast (h : Change w w') (hw : ∀ p ∈ w.pipes, p.ClosedLast) :
    ∀ p ∈ w'.pipes, p.ClosedLast := by
  intro p hp
  cases h with
  | still hpipes => exact hw p (hpipes ▸ hp)
  | turn id hp' hturn hpipes =>
      rw [hpipes] at hp
      rcases List.mem_or_eq_of_mem_set hp with hp | rfl
      · exact hw p hp
      · exact (hw _ (List.mem_of_getElem? hp')).turn hturn
  | attach channel hpipes =>
      rw [hpipes] at hp
      rcases List.mem_append.mp hp with hp | hp
      · exact hw p hp
      · obtain rfl := List.mem_singleton.mp hp
        exact Pipe.closedLast_fresh channel

/-- What a history of worlds shows about its pipes. -/
structure Lifecycle (ws : List World) : Prop where
  /-- From each world to the next at most one operation happens. -/
  turns : ws.IsChain Turn
  /-- A close is the last call of a channel, and there is one just if the pipe is closed. -/
  closedLast : ∀ w ∈ ws, ∀ p ∈ w.pipes, p.ClosedLast
  /-- What is closed in one world stays as it is in all later ones. -/
  settled : ws.Pairwise Settled

theorem closedLast_of_turns {ws : List World} : ∀ {w : World}, (w :: ws).IsChain Turn →
    (∀ p ∈ w.pipes, p.ClosedLast) → ∀ k ∈ w :: ws, ∀ p ∈ k.pipes, p.ClosedLast := by
  induction ws with
  | nil =>
      intro w _ hw k hk
      obtain rfl := List.mem_singleton.mp hk
      exact hw
  | cons w' ws ih =>
      intro w hturns hw k hk
      obtain ⟨hturn, hrest⟩ := List.isChain_cons_cons.mp hturns
      rcases List.mem_cons.mp hk with rfl | hk
      · exact hw
      · exact ih hrest (hturn.change.closedLast hw) k hk

/-- The world with an open pipe around each of some channels, with some files, in a network. -/
def around (channels : List Channel) (files : Directory) (network : Network) : World :=
  ⟨channels.map .fresh, files, network⟩

/-- **A history of operations on pipes that start untouched is a lifecycle.** -/
theorem lifecycle_of_turns {channels : List Channel} {files : Directory} {network : Network}
    {ws : List World} (hturns : (around channels files network :: ws).IsChain Turn) :
    Lifecycle (around channels files network :: ws) := by
  have hstart : ∀ p ∈ (around channels files network).pipes, p.ClosedLast := by
    intro p hp
    obtain ⟨channel, -, rfl⟩ := List.mem_map.mp hp
    exact Pipe.closedLast_fresh channel
  exact ⟨hturns, closedLast_of_turns hturns hstart,
    List.isChain_iff_pairwise.mp (hturns.imp fun _ _ h => h.change.settled)⟩

end World

/-! ### Handles -/

/-- Handles on pipes, and the world the pipes are in. -/
structure Handles where
  ids : List PipeId
  world : World

namespace Handles

/-- Something done with a handle, given by its place among all of them. -/
inductive Request where
  | write (i : Nat) (bytes : List UInt8)
  | read (i room : Nat)
  | close (i : Nat)
  | clone (i : Nat)

/-- Act on the pipe of a handle, if there is such a handle. -/
def act {α : Type} (i : Nat) (f : PipeId → World.Act α) (h : Handles) : Handles :=
  match h.ids[i]? with
  | some id => { h with world := (f id).after h.world }
  | none => h

/-- The handles and the world after a request. A clone is one more handle on the same pipe. -/
def after (h : Handles) : Request → Handles
  | .write i bytes => h.act i (World.write · bytes)
  | .read i room => h.act i (World.read · room)
  | .close i => h.act i World.close
  | .clone i => { h with ids := h.ids ++ h.ids[i]?.toList }

/-- The worlds that requests lead through, without the first. -/
def history (h : Handles) : List Request → List World
  | [] => []
  | r :: rs => (h.after r).world :: (h.after r).history rs

/-- Two handles are on the same pipe. -/
def Same (h : Handles) (i j : Nat) : Prop :=
  ∃ id, h.ids[i]? = some id ∧ h.ids[j]? = some id

/-- Whether the pipe of a handle is open. -/
def isOpen? (h : Handles) (i : Nat) : Option Bool :=
  h.ids[i]?.map h.world.isOpen

variable {h : Handles}

theorem act_turn {α : Type} (i : Nat) {f : PipeId → World.Act α}
    (hf : ∀ id, World.Through id (f id)) : World.Turn h.world (h.act i f).world := by
  unfold act
  cases h.ids[i]? with
  | none => exact .stay
  | some id => exact .operation (.through (hf id))

theorem after_turn (h : Handles) (r : Request) : World.Turn h.world (h.after r).world := by
  cases r with
  | write i bytes => exact act_turn i fun id => .write bytes
  | read i room => exact act_turn i fun id => .read room
  | close i => exact act_turn i fun id => .close
  | clone i => exact .stay

theorem history_turns (rs : List Request) : ∀ h : Handles,
    (h.world :: h.history rs).IsChain World.Turn := by
  induction rs with
  | nil => exact fun h => .singleton _
  | cons r rs ih => exact fun h => .cons_cons (h.after_turn r) (ih (h.after r))

theorem act_ids {α : Type} (i : Nat) (f : PipeId → World.Act α) (h : Handles) :
    (h.act i f).ids = h.ids := by
  unfold act
  cases h.ids[i]? <;> rfl

/-- A handle is on one pipe for ever. -/
theorem ids_after {i : Nat} {id : PipeId} (hid : h.ids[i]? = some id) (r : Request) :
    (h.after r).ids[i]? = some id := by
  cases r with
  | write j bytes => rw [after, act_ids, hid]
  | read j room => rw [after, act_ids, hid]
  | close j => rw [after, act_ids, hid]
  | clone j =>
      have hindex : i < h.ids.length := (List.getElem?_eq_some_iff.mp hid).1
      rw [after, List.getElem?_append_left hindex, hid]

theorem Same.after {i j : Nat} (rs : List Request) : ∀ {h : Handles}, h.Same i j →
    (rs.foldl Handles.after h).Same i j := by
  induction rs with
  | nil => exact id
  | cons r rs ih =>
      rintro h ⟨id, hi, hj⟩
      exact ih ⟨id, ids_after hi r, ids_after hj r⟩

theorem Same.isOpen? {i j : Nat} (hsame : h.Same i j) : h.isOpen? i = h.isOpen? j := by
  obtain ⟨id, hi, hj⟩ := hsame
  rw [Handles.isOpen?, Handles.isOpen?, hi, hj]

theorem same_clone {i : Nat} (hi : i < h.ids.length) :
    (h.after (.clone i)).Same i h.ids.length := by
  refine ⟨h.ids[i], ids_after (List.getElem?_eq_getElem hi) _, ?_⟩
  rw [after, List.getElem?_eq_getElem hi]
  exact List.getElem?_concat_length

end Handles

/-! ### Programs -/

/-- The operands, topmost last, with which a primitive turns to a pipe. -/
inductive Primitive.Addresses (id : PipeId) : Primitive → List Value → Prop
  | send (v : Value) : Addresses id .send [.pipe id, v]
  | receive (x : Float) : Addresses id .receive [.pipe id, .number x]
  | close : Addresses id .close [.pipe id]

namespace Effect

variable {m : Machine} {id : PipeId}

theorem attempt_refused {α : Type} {act : World.Act α} (hact : World.Through id act)
    (h : m.world.isOpen id = false) : attempt act m = .ok (.error .closed) m := by
  unfold attempt
  rw [hact.refused h]

/-- **What a program asks of a pipe that is not open is refused**, with nothing but the data stack
changed. -/
theorem run_refused {p : Primitive} {operands below : List Value}
    (haddress : p.Addresses id operands) (hdata : m.data.values = below ++ operands)
    (h : m.world.isOpen id = false) :
    ∃ data, p.run m = report (.error .closed) { m with data } := by
  have hitems : m.data.items = operands.reverse ++ below.reverse := by
    rw [← List.reverse_append, ← hdata, Stack.values, List.reverse_reverse]
  -- Taking operands off leaves the world alone, so the pipe is as closed as it was.
  have hrefused : ∀ {α : Type} {act : World.Act α}, World.Through id act → ∀ data,
      attempt act { m with data } = .ok (.error .closed) { m with data } :=
    fun hact data => attempt_refused hact h
  cases haddress with
  | send v =>
      refine ⟨⟨.pipe id :: below.reverse, m.data.free + 1⟩, ?_⟩
      rw [Primitive.run, Primitive.sendTop, bind_ok (pop_eq hitems), bind_ok (peek_eq rfl)]
      exact bind_ok (hrefused (.write _) _)
  | receive x =>
      refine ⟨⟨.pipe id :: below.reverse, m.data.free + 1⟩, ?_⟩
      rw [Primitive.run, Primitive.receiveTop, bind_ok (pop_eq hitems)]
      exact (bind_ok (peek_eq rfl)).trans (bind_ok (hrefused (.read _) _))
  | close =>
      refine ⟨⟨below.reverse, m.data.free + 1⟩, ?_⟩
      rw [Primitive.run, Primitive.closeTop, bind_ok (peek_eq hitems)]
      exact (bind_ok (drop_eq hitems)).trans (bind_ok (hrefused .close _))

end Effect

/--
**A pipe is closed once, for all its copies, and for ever.**

Start from open pipes around any channels, in any network.  Whatever is requested
through handles on them, clones among them, and however a machine is used, with programs
that open, make and dial pipes and copy them in every way they can, the worlds on the
way form a lifecycle: the log of a channel
has a close just if its pipe is closed, then as its last call and its only close, and
what is closed stays as it is.  Handles on one pipe, a clone and its original among
them, are on one pipe for ever and agree on whether it is open; pipes that are equal to
a program have one name.  A close leaves the pipe closed whatever its channel says to
it; whatever goes through a pipe that is not open fails with the fault of a closed pipe
and changes nothing, which is what programs are told; and what goes through one pipe
leaves all others as they are.
-/
theorem pipe_closes_once_for_all_copies (channels : List Channel) (files : Directory)
    (network : Network) :
    (∀ (ids : List PipeId) (requests : List Handles.Request), World.Lifecycle
      (.around channels files network ::
        Handles.history ⟨ids, .around channels files network⟩ requests)) ∧
    (∀ (stackSize : Nat) (sink : Sink) (uses : List Machine.Use), ∃ points,
      Machine.Passes uses (.fresh stackSize sink (.around channels files network)) points ∧
      World.Lifecycle
        (.around channels files network :: (Point.machines points).map Machine.world)) ∧
    (∀ (h : Handles) (i : Nat), i < h.ids.length → (h.after (.clone i)).Same i h.ids.length) ∧
    (∀ (h : Handles) (i j : Nat), h.Same i j → ∀ requests : List Handles.Request,
      (requests.foldl Handles.after h).Same i j ∧
      (requests.foldl Handles.after h).isOpen? i = (requests.foldl Handles.after h).isOpen? j) ∧
    (∀ a b : PipeId, Value.same (.pipe a) (.pipe b) = true ↔ a = b) ∧
    (∀ (w : World) (id : PipeId), ((World.close id).after w).isOpen id = false ∧
      ∀ {α : Type} (act : World.Act α), World.Through id act →
        (w.isOpen id = false → act w = .error .closed w) ∧
        ∀ other, other ≠ id → (act.after w).pipe? other = w.pipe? other) ∧
    (∀ (m : Machine) (id : PipeId), m.world.isOpen id = false →
      ∀ (p : Primitive) (operands below : List Value), p.Addresses id operands →
        m.data.values = below ++ operands →
        ∃ data, p.run m = Effect.report (.error .closed) { m with data }) := by
  refine ⟨?_, ?_, ?_, ?_, ?_, ?_, ?_⟩
  · intro ids requests
    exact World.lifecycle_of_turns
      (Handles.history_turns requests ⟨ids, .around channels files network⟩)
  · intro stackSize sink uses
    obtain ⟨points, hpasses, htrail⟩ :=
      Machine.exists_orderly uses (.fresh stackSize sink (.around channels files network))
    have hworlds : (List.map Machine.world (_ :: Point.machines points)).IsChain World.Turn :=
      (List.isChain_map Machine.world).mpr htrail.isChain
    exact ⟨points, hpasses, World.lifecycle_of_turns hworlds⟩
  · intro h i hi
    exact Handles.same_clone hi
  · intro h i j hsame requests
    exact ⟨hsame.after requests, (hsame.after requests).isOpen?⟩
  · intro a b
    rw [Value.same, beq_iff_eq]
  · intro w id
    refine ⟨World.isOpen_close w id, ?_⟩
    intro α act hact
    exact ⟨hact.refused, fun other hne => hact.apart w hne⟩
  · intro m id h p operands below haddress hdata
    exact Effect.run_refused haddress hdata h

/-- A channel that fails to close, used through a handle and its clone, and a peer that is dialled,
whose channel fails to close too, used by a program that holds two copies of the pipe. -/
theorem pipe_closes_once_for_all_copies_failing_close :
    let stuck : Script := { close := some (.reported "stuck") }
    let start : World := .around [.scripted stuck, .scripted {}] .empty
      { connections := [fun _ => .ok stuck] }
    let requests : List Handles.Request :=
      [.clone 0, .write 2 [7], .close 0, .write 2 [8], .close 2]
    let h : Handles := ⟨[⟨0⟩, ⟨1⟩], start⟩
    let uses : List Machine.Use := [.push (.text "tcp"), .push (.text "127.0.0.1:80"),
      .invoke .dial, .invoke .drop, .invoke .dup, .invoke .close, .invoke .drop, .invoke .drop,
      .push (.text "late"), .invoke .send]
    let dialled : World := (World.dial "tcp" "127.0.0.1:80").after start
    let m : Machine := { Machine.fresh 8 {} ((World.close ⟨2⟩).after dialled) with
      data := ⟨[.text "late", .pipe ⟨2⟩], 6⟩ }
    World.Lifecycle (start :: h.history requests) ∧
    (requests.foldl Handles.after h).world.pipes.map Pipe.log =
      [[.write (some [7]), .flush, .close], []] ∧
    (∃ points, Machine.Passes uses (.fresh 8 {} start) points ∧
      World.Lifecycle (start :: (Point.machines points).map Machine.world)) ∧
    (h.after (.clone 0)).Same 0 2 ∧
    (requests.foldl Handles.after h).isOpen? 0 = (requests.foldl Handles.after h).isOpen? 2 ∧
    dialled.isOpen ⟨2⟩ = true ∧
    World.write ⟨2⟩ [8] m.world = .error .closed m.world ∧
    ((World.close ⟨2⟩).after dialled).pipe? ⟨1⟩ = dialled.pipe? ⟨1⟩ ∧
    ∃ data, Primitive.send.run m = Effect.report (.error .closed) { m with data } := by
  intro stuck start requests h uses dialled m
  obtain ⟨hhandles, hprograms, hclone, hsame, -, hthrough, hrefused⟩ :=
    pipe_closes_once_for_all_copies [.scripted stuck, .scripted {}] .empty start.network
  have hclosed : m.world.isOpen ⟨2⟩ = false := (hthrough dialled ⟨2⟩).1
  have hcopy : (h.after (.clone 0)).Same 0 2 := hclone h 0 (by decide)
  exact ⟨hhandles _ requests, rfl, hprograms 8 {} uses, hcopy,
    (hsame _ 0 2 hcopy (requests.drop 1)).2, rfl,
    ((hthrough m.world ⟨2⟩).2 _ (.write [8])).1 hclosed,
    ((hthrough dialled ⟨2⟩).2 _ .close).2 ⟨1⟩ (by decide),
    hrefused m ⟨2⟩ hclosed .send _ [] (.send _) rfl⟩

end DualStack
