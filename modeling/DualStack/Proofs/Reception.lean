/-
What receiving takes from a stream.

The bytes a channel has yet to give are a stream (`Channel.stream`): the pieces a script
holds ready, or what lies behind the position in a file.  One read takes the first bytes
of the stream and leaves the others where they are, as many as it has room for at most,
and a read that fails takes nothing (`Channel.read_stream`).  So whatever the sizes asked
for and wherever the pieces end, the blobs received one after the other are the first
bytes of the stream (`received_first`).

How many bytes a read has room for is told by a number, which may be any double.  It is
cut toward zero and brought between zero and the largest buffer (`roomOf_eq`).
-/
import DualStack.Proofs.Delivery
import DualStack.Proofs.Truncation

namespace DualStack

/-! ### The room for a read -/

/-- **The room a number asks for is its integer part, brought between zero and 65536.** -/
theorem roomOf_eq (x : Float) :
    (Primitive.roomOf x : Int) = Binary.saturated 0 65536 x.toModel.unpack := by
  have hlimit : (65536 : Int) ≤ 2 ^ 64 - 1 := by norm_num
  rw [← Binary.min_saturated (by norm_num) hlimit, ← Binary.toNat_toUInt64]
  exact Nat.cast_min _ _

/-- A count that a buffer can hold is what the program reads off the number. -/
theorem toNat_toUInt64_ofNat {n : Nat} (h : n ≤ 65536) : (Float.ofNat n).toUInt64.toNat = n := by
  have hdenotes := Binary.denotes_ofNat (n := n) (by omega)
  have hread := hdenotes.toNat_toUInt64 (Nat.cast_nonneg n)
  rw [Nat.floor_natCast] at hread
  exact hread.trans (by omega)

/-! ### Streams -/

/-- The bytes a read brings if there is room for all of them. -/
def ReadTurn.available : ReadTurn → List UInt8
  | bytes available => available
  | fail _ => []

/-- The bytes a channel has yet to give, in order. -/
def Channel.stream (files : Directory) : Channel → List UInt8
  | scripted script => script.reads.flatMap ReadTurn.available
  | file path access position =>
    match access, files.entry? path with
    | .reading, some (.file contents) => contents.drop position
    | _, _ => []

/-- The bytes that come from a read; none come from one that fails. -/
def arrived : Except Fault (List UInt8) → List UInt8
  | .ok bytes => bytes
  | .error _ => []

/-- A read from a stream: what arrives are the first bytes of the stream, the others are still to
come, and there was room for those that arrived. -/
structure Exchange.ReadFrom (stream : List UInt8) (room : Nat) (e : Exchange (List UInt8)) :
    Prop where
  first : arrived e.result ++ e.channel.stream e.files = stream
  fits : (arrived e.result).length ≤ room
  once : e.calls = [.read room]

namespace Channel

theorem read_scripted (script : Script) (room : Nat) (files : Directory) :
    (read room files (scripted script)).ReadFrom (stream files (scripted script)) room := by
  obtain ⟨reads, writes, flushes, close⟩ := script
  cases reads with
  | nil => exact ⟨rfl, Nat.zero_le room, rfl⟩
  | cons turn reads =>
      cases turn with
      | fail fault => exact ⟨rfl, Nat.zero_le room, rfl⟩
      | bytes available =>
          refine ⟨?_, List.length_take_le room available, rfl⟩
          show available.take room ++ (if (available.drop room).isEmpty then reads
            else .bytes (available.drop room) :: reads).flatMap ReadTurn.available =
              available ++ reads.flatMap ReadTurn.available
          have hparts := List.take_append_drop room available
          split
          · rename_i hempty
            rw [List.isEmpty_iff.mp hempty, List.append_nil] at hparts
            rw [hparts]
          · rw [List.flatMap_cons, ← List.append_assoc]
            exact congrArg (· ++ _) hparts

theorem read_file (path : Path) (access : Access) (position room : Nat) (files : Directory) :
    (read room files (file path access position)).ReadFrom
      (stream files (file path access position)) room := by
  cases access with
  | writing => exact ⟨rfl, Nat.zero_le room, rfl⟩
  | reading =>
      cases hentry : files.entry? path with
      | none => constructor <;> simp [read, stream, hentry, arrived]
      | some entry =>
          cases entry with
          | directory => constructor <;> simp [read, stream, hentry, arrived]
          | file contents =>
              have hparts := List.prefix_iff_eq_append.mp
                (List.take_prefix room (contents.drop position))
              rw [List.drop_drop] at hparts
              refine ⟨?_, ?_, ?_⟩
              · simpa only [read, stream, hentry, arrived] using hparts
              · simp [read, hentry, arrived]
              · simp [read, hentry]

/-- **A read takes the first bytes of the stream and leaves the others.** -/
theorem read_stream (channel : Channel) (room : Nat) (files : Directory) :
    (channel.read room files).ReadFrom (channel.stream files) room := by
  cases channel with
  | scripted script => exact read_scripted script room files
  | file path access position => exact read_file path access position room files

end Channel

/-- The bytes the channel of a pipe has yet to give, in order. -/
def World.stream (w : World) (id : PipeId) : List UInt8 :=
  match w.pipe? id with
  | some p => p.channel.stream w.files
  | none => []

theorem World.stream_read {w : World} {id : PipeId} {channel : Channel} {calls : List Call}
    (hp : w.pipe? id = some ⟨channel, true, calls⟩) (room : Nat) :
    arrived ((read id room).outcome w) ++ ((read id room).after w).stream id = w.stream id := by
  have hafter : ((read id room).after w).stream id =
      (channel.read room w.files).channel.stream (channel.read room w.files).files := by
    unfold stream
    rw [read, exchange_pipe _ hp, exchange_open _ hp]
  have hbefore : w.stream id = channel.stream w.files := by
    unfold stream
    rw [hp]
  rw [hafter, hbefore, read, exchange_outcome _ hp]
  exact (channel.read_stream room w.files).first

/-! ### Receiving -/

/-- What a program finds above its pipe when it has received. -/
inductive Receipt where
  | bytes (blob : List UInt8) (count : Float)
  | failure (message : String)

namespace Receipt

def values : Receipt → List Value
  | bytes blob count => [.blob blob, .number count, .number 0.0]
  | failure message => [.text message, .number 1.0]

/-- The bytes that were received. -/
def blob : Receipt → List UInt8
  | bytes blob _ => blob
  | failure _ => []

/-- How many bytes it says there are. -/
def count : Receipt → Nat
  | bytes _ count => count.toUInt64.toNat
  | failure _ => 0

/-- The receipt for the outcome of a read. -/
def ofOutcome : Except Fault (List UInt8) → Receipt
  | .ok received => bytes received (.ofNat received.length)
  | .error fault => failure fault.message

theorem blob_ofOutcome (outcome : Except Fault (List UInt8)) :
    (ofOutcome outcome).blob = arrived outcome := by
  cases outcome <;> rfl

/-- A receipt says how many bytes there are. -/
theorem count_ofOutcome {outcome : Except Fault (List UInt8)}
    (hfits : (arrived outcome).length ≤ 65536) :
    (ofOutcome outcome).count = (ofOutcome outcome).blob.length := by
  cases outcome with
  | ok received => exact toNat_toUInt64_ofNat hfits
  | error fault => rfl

end Receipt

/-- What `recv` does with a pipe that is open. -/
theorem receive_run {m : Machine} {id : PipeId} {channel : Channel} {calls : List Call}
    {below : List Value} {x : Float} (hopen : m.world.pipe? id = some ⟨channel, true, calls⟩)
    (hdata : m.data.values = below ++ [.pipe id, .number x])
    (hroom : below.length + 4 ≤ m.data.capacity) :
    ∃ data, Primitive.receive.run m =
        .ok () { m with data, world := (World.read id (Primitive.roomOf x)).after m.world } ∧
      data.values = below ++ .pipe id ::
        (Receipt.ofOutcome (channel.read (Primitive.roomOf x) m.world.files).result).values := by
  obtain ⟨data, hrun, hvalues⟩ : ∃ data, Primitive.receiveTop m = _ ∧ _ :=
    Effect.talk_run (World.read id (Primitive.roomOf x))
      (fun bytes => [.blob bytes, .number (.ofNat bytes.length)])
      (fun _ hitems => Effect.bind_ok (Effect.peek_eq hitems))
      (fun _ => Nat.le_refl 2) Nat.two_pos hdata hroom
  refine ⟨data, hrun, ?_⟩
  rw [hvalues, World.read, World.exchange_outcome _ hopen]
  cases (channel.read (Primitive.roomOf x) m.world.files).result <;> rfl

/-- A machine that is about to receive: a number above an open pipe, with room for the results. -/
def Machine.Awaits (id : PipeId) (m : Machine) : Prop :=
  ∃ channel calls below x, m.world.pipe? id = some ⟨channel, true, calls⟩ ∧
    m.data.values = below ++ [.pipe id, .number x] ∧ below.length + 4 ≤ m.data.capacity

/-- Receiving succeeds, and the receipt stands in place of the number. -/
def Receipt.Given (m : Machine) (receipt : Receipt) : Prop :=
  ∃ n, Primitive.receive.run m = .ok () n ∧
    n.data.values = m.data.values.dropLast ++ receipt.values

/-- What follows one receive in the stream of its pipe. -/
theorem receive_first {id : PipeId} {m : Machine} (h : m.Awaits id) :
    ∃ receipt : Receipt, receipt.Given m ∧ receipt.count = receipt.blob.length ∧
      receipt.blob ++ (Primitive.receive.run.after m).world.stream id = m.world.stream id := by
  obtain ⟨channel, calls, below, x, hopen, hdata, hroom⟩ := h
  obtain ⟨data, hrun, hvalues⟩ := receive_run hopen hdata hroom
  have hread := channel.read_stream (Primitive.roomOf x) m.world.files
  have houtcome := World.exchange_outcome
    (fun files channel => channel.read (Primitive.roomOf x) files) hopen
  refine ⟨_, ⟨_, hrun, ?_⟩, Receipt.count_ofOutcome (hread.fits.trans (Nat.min_le_right _ _)), ?_⟩
  · rw [hvalues, hdata]
    simp
  · rw [Effect.after_ok hrun, Receipt.blob_ofOutcome, ← houtcome]
    exact World.stream_read hopen _

/-- Nothing is taken from the stream of a pipe between one receive and the next. -/
def Machine.Continues (id : PipeId) (m m' : Machine) : Prop :=
  m'.world.stream id = (Primitive.receive.run.after m).world.stream id

/-- **The blobs received one after the other are the first bytes of the stream,** and what the last
of the receives has left is still to come.  The induction is on the receives that follow. -/
theorem received_first {id : PipeId} (ms : List Machine) : ∀ m : Machine,
    (∀ k ∈ m :: ms, k.Awaits id) → (m :: ms).IsChain (Machine.Continues id) →
    ∃ receipts, (m :: ms).Forall₂ Receipt.Given receipts ∧
      receipts.flatMap Receipt.blob ++ (Primitive.receive.run.after
        ((m :: ms).getLast (List.cons_ne_nil m ms))).world.stream id = m.world.stream id ∧
      (receipts.map Receipt.count).sum = (receipts.flatMap Receipt.blob).length := by
  induction ms with
  | nil =>
      intro m hawaits _
      obtain ⟨receipt, hgiven, hcount, hfirst⟩ := receive_first (hawaits m (by simp))
      exact ⟨[receipt], .cons hgiven .nil, by simpa using hfirst, by simp [hcount]⟩
  | cons m' ms ih =>
      intro m hawaits hchain
      obtain ⟨hcontinues, hchain⟩ := List.isChain_cons_cons.mp hchain
      obtain ⟨receipt, hgiven, hcount, hfirst⟩ := receive_first (hawaits m (by simp))
      obtain ⟨receipts, hall, hrest, hsum⟩ :=
        ih m' (fun k hk => hawaits k (List.mem_cons_of_mem m hk)) hchain
      refine ⟨receipt :: receipts, .cons hgiven hall, ?_, ?_⟩
      · rw [List.flatMap_cons, List.append_assoc, List.getLast_cons_cons, hrest, hcontinues, hfirst]
      · rw [List.map_cons, List.sum_cons, hsum, hcount, List.flatMap_cons, List.length_append]

/--
**Receiving neither loses nor repeats nor pads bytes.**

One receive makes one read, and the read has room for as many bytes as the number says,
cut toward zero and brought between zero and 65536.  If the read succeeds then the
program finds above its pipe the bytes that were read, their number and zero, and
otherwise the message of the fault and one.

So over any number of receives through one pipe, whatever sizes are asked for, wherever
the pieces of its stream end and whichever of the reads fail, the blobs put together are
the first bytes of the stream, what is left of the stream is still to come, and the
counts add up to the number of bytes.
-/
theorem receive_neither_loses_nor_repeats (id : PipeId) :
    (∀ (m : Machine) (channel : Channel) (calls : List Call) (below : List Value) (x : Float),
      m.world.pipe? id = some ⟨channel, true, calls⟩ →
      m.data.values = below ++ [.pipe id, .number x] → below.length + 4 ≤ m.data.capacity →
      ∃ (room : Nat) (n : Machine), (room : Int) = Binary.saturated 0 65536 x.toModel.unpack ∧
        Primitive.receive.run m = .ok () n ∧
        (n.world.pipe? id).map Pipe.log = some (calls.reverse ++ [.read room]) ∧
        match (channel.read room m.world.files).result with
        | .ok bytes => bytes.length ≤ room ∧ n.data.values =
            below ++ [.pipe id, .blob bytes, .number (.ofNat bytes.length), .number 0.0]
        | .error fault =>
            n.data.values = below ++ [.pipe id, .text fault.message, .number 1.0]) ∧
    ∀ (m : Machine) (ms : List Machine), (∀ k ∈ m :: ms, k.Awaits id) →
      (m :: ms).IsChain (Machine.Continues id) →
      ∃ receipts, (m :: ms).Forall₂ Receipt.Given receipts ∧
        receipts.flatMap Receipt.blob <+: m.world.stream id ∧
        receipts.flatMap Receipt.blob ++ (Primitive.receive.run.after
          ((m :: ms).getLast (List.cons_ne_nil m ms))).world.stream id = m.world.stream id ∧
        (receipts.map Receipt.count).sum = (receipts.flatMap Receipt.blob).length := by
  constructor
  · intro m channel calls below x hopen hdata hroom
    obtain ⟨data, hrun, hvalues⟩ := receive_run hopen hdata hroom
    have hread := channel.read_stream (Primitive.roomOf x) m.world.files
    refine ⟨Primitive.roomOf x, _, roomOf_eq x, hrun, ?_, ?_⟩
    · rw [World.read, World.exchange_pipe _ hopen, Option.map_some, Pipe.log, hread.once]
      simp
    · have hfits := hread.fits
      revert hvalues hfits
      cases (channel.read (Primitive.roomOf x) m.world.files).result with
      | ok bytes => exact fun hvalues hfits => ⟨hfits, hvalues⟩
      | error fault => exact fun hvalues _ => hvalues
  · intro m ms hawaits hchain
    obtain ⟨receipts, hgiven, hfirst, hsum⟩ := received_first ms m hawaits hchain
    exact ⟨receipts, hgiven, ⟨_, hfirst⟩, hfirst, hsum⟩

/-- A stream of four bytes in two pieces, with a failure between them.  Two and a half bytes are
asked for, then more than any buffer holds, then NaN bytes. -/
theorem receive_neither_loses_nor_repeats_in_pieces :
    let channel := Channel.scripted
      { reads := [.bytes [1, 2, 3], .fail .interrupted, .bytes [4]] }
    let first := { Machine.fresh 4 {} (.around [channel] .empty {}) with
      data := ⟨[.number 2.5, .pipe ⟨0⟩], 2⟩ }
    let second := { first with
      data := ⟨[.number 1e9, .pipe ⟨0⟩], 2⟩, world := (Primitive.receive.run.after first).world }
    let third := { second with
      data := ⟨[.number (0.0 / 0.0), .pipe ⟨0⟩], 2⟩,
      world := (Primitive.receive.run.after second).world }
    (∃ n, Primitive.receive.run first = .ok () n ∧
      (n.world.pipe? ⟨0⟩).map Pipe.log = some [.read 2] ∧
      n.data.values = [.pipe ⟨0⟩, .blob [1, 2], .number (.ofNat 2), .number 0.0]) ∧
    (∀ k ∈ [first, second, third], k.Awaits ⟨0⟩) ∧
    [first, second, third].IsChain (Machine.Continues ⟨0⟩) ∧
    ∃ receipts, [first, second, third].Forall₂ Receipt.Given receipts ∧
      receipts.flatMap Receipt.blob <+: [1, 2, 3, 4] ∧
      (receipts.map Receipt.count).sum = (receipts.flatMap Receipt.blob).length := by
  intro channel first second third
  obtain ⟨once, many⟩ := receive_neither_loses_nor_repeats ⟨0⟩
  have hawaits : ∀ k ∈ [first, second, third], k.Awaits ⟨0⟩ := by
    simp only [List.forall_mem_cons, List.not_mem_nil, false_imp_iff, implies_true, and_true]
    exact ⟨⟨_, _, [], _, rfl, rfl, by decide⟩, ⟨_, _, [], _, rfl, rfl, by decide⟩,
      ⟨_, _, [], _, rfl, rfl, by decide⟩⟩
  have hchain : [first, second, third].IsChain (Machine.Continues ⟨0⟩) :=
    .cons_cons rfl (.cons_cons rfl (.singleton third))
  refine ⟨?_, hawaits, hchain, ?_⟩
  · obtain ⟨room, n, hroom, hrun, hlog, hvalues⟩ := once first channel [] [] 2.5 rfl rfl (by decide)
    obtain rfl : room = 2 := by
      have htwo : Primitive.roomOf 2.5 = 2 := by decide +kernel
      rw [← roomOf_eq, htwo] at hroom
      exact_mod_cast hroom
    exact ⟨n, hrun, hlog, hvalues.2⟩
  · obtain ⟨receipts, hgiven, hfirst, -, hsum⟩ := many first [second, third] hawaits hchain
    exact ⟨receipts, hgiven, hfirst, hsum⟩

end DualStack
