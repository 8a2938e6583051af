/-
A stream with one token of look-ahead is the list of its tokens.

A stream holds the token it will hand out next, so the place it has read up to lies one
token ahead of its reader.  `Pending` says what is still to come from a stream: the tokens
from some place on, the one it holds among them, and then the end.  A request takes at
most the first of them and is replied to as a list would reply (`Pending.ask_spec`).
Before the first request the tokens of the source are pending, so by induction on the
requests each reply is told by how many tokens were handed out before it.

The end token carries the length of the source, which a stream does not know: it counts
the bytes it has passed.  Reading on moves no byte from one side of the count to the other
(`Cursor.stop_next`), so what it has counted at the end is all of them.
-/
import DualStack.Proofs.Scanning
import DualStack.Token.Stream

namespace DualStack

/-! ### Places -/

namespace Cursor

/-- The byte offset where the source ends. -/
def stop (k : Cursor) : Nat :=
  k.offset + Text.width k.rest

theorem stop_skip (k : Cursor) : k.skip.stop = k.stop := by
  have hparts := congrArg Text.width
    (List.takeWhile_append_dropWhile (p := Text.isSeparator) (l := k.rest))
  rw [Text.width_append] at hparts
  unfold stop skip
  rw [Nat.add_assoc, hparts]

/-- However far a source is read, it ends where it ends. -/
theorem stop_next (k : Cursor) : k.next.2.stop = k.stop := by
  rw [← k.stop_skip]
  unfold next
  split
  · rename_i offset hskip
    rw [hskip]
  · rename_i offset c cs hskip
    have hparts := congrArg Text.width (Lexeme.split_eq c cs)
    rw [Text.width_append] at hparts
    rw [hskip]
    unfold stop
    dsimp only
    omega

/-- Where no token is left, only the end is read, and it stays to be read. -/
theorem next_of_tokens_nil {k : Cursor} (h : k.tokens = []) :
    k.next = (Token.endOf k.stop, ⟨k.stop, []⟩) := by
  have hend : k.skip.rest = [] := by
    rw [tokens] at h
    split at h
    · assumption
    · exact absurd h (by simp)
  have hskip : k.skip = ⟨k.stop, []⟩ := by
    rw [← k.stop_skip, stop, hend, Text.width_nil, Nat.add_zero, ← hend]
  rw [next, hskip]

theorem next_of_tokens_cons {k : Cursor} {t : Token} {ts : List Token} (h : k.tokens = t :: ts) :
    k.next.1 = t ∧ k.next.2.tokens = ts := by
  rw [tokens] at h
  split at h
  · exact absurd h (by simp)
  · exact List.cons.inj h

/-- No token before the end is an end token. -/
theorem kind_ne_eof {k : Cursor} {t : Token} (h : t ∈ k.tokens) : t.kind ≠ .eof := by
  obtain ⟨c, cs, offset, -, rfl⟩ := of_mem_tokens h
  exact Lexeme.kind_ne_eof c cs

end Cursor

namespace TokenStream

/-! ### Requests and replies -/

/-- What the reader of a stream can ask for. -/
inductive Request where
  /-- Whether there is a token before the end. -/
  | hasMore
  /-- The next token, be it the end token. -/
  | nextToken
  /-- The next token, if there is one before the end. -/
  | next

/-- What a stream replies. -/
inductive Reply where
  | more (answer : Bool)
  | token (t : Token)
  | item (t? : Option Token)
deriving DecidableEq

/-- Make a request: the reply, and the stream as it is then. -/
def ask (s : TokenStream) : Request → Reply × TokenStream
  | .hasMore => (.more s.hasMore, s)
  | .nextToken => (.token s.nextToken.1, s.nextToken.2)
  | .next => (.item s.next?.1, s.next?.2)

/-- The replies to requests that are made one after the other. -/
def replies (s : TokenStream) : List Request → List Reply
  | [] => []
  | r :: rs => (s.ask r).1 :: (s.ask r).2.replies rs

/-- The stream after some requests. -/
def after (s : TokenStream) (rs : List Request) : TokenStream :=
  rs.foldl (fun s r => (s.ask r).2) s

/-- The token that a reply hands out; the end token is not counted as one. -/
def Reply.token? : Reply → Option Token
  | more _ => none
  | token t => if t.kind = .eof then none else some t
  | item t? => t?

/-- The tokens that some replies hand out, in order. -/
def handedOut (replies : List Reply) : List Token :=
  replies.filterMap Reply.token?

/-- What a list of tokens replies when the first `j` of them are handed out and the source
they come from has `length` bytes. -/
def Request.reply (tokens : List Token) (length j : Nat) : Request → Reply
  | hasMore => .more (j < tokens.length)
  | nextToken => .token (tokens[j]?.getD ⟨.eof, "", length⟩)
  | next => .item tokens[j]?

theorem handedOut_cons (reply : Reply) (replies : List Reply) :
    handedOut (reply :: replies) = reply.token?.toList ++ handedOut replies := by
  unfold handedOut
  cases h : reply.token? with
  | none => rw [List.filterMap_cons_none h, Option.toList_none, List.nil_append]
  | some t => rw [List.filterMap_cons_some h, Option.toList_some, List.singleton_append]

/-- A list replies as what is left of it. -/
theorem Request.reply_append (front rest : List Token) (length j : Nat) (r : Request) :
    r.reply (front ++ rest) length (front.length + j) = r.reply rest length j := by
  cases r with
  | hasMore => simp [reply]
  | nextToken | next => simp [reply, List.getElem?_append_right]

@[simp]
theorem length_replies (s : TokenStream) (rs : List Request) :
    (s.replies rs).length = rs.length := by
  induction rs generalizing s with
  | nil => rfl
  | cons r rs ih => rw [replies, List.length_cons, List.length_cons, ih]

theorem replies_append (s : TokenStream) (front back : List Request) :
    s.replies (front ++ back) = s.replies front ++ (s.after front).replies back := by
  induction front generalizing s with
  | nil => rfl
  | cons r front ih => rw [List.cons_append, replies, replies, List.cons_append, ih]; rfl

/-! ### What is still to come -/

/-- The tokens that a stream has yet to hand out, from a source of so many bytes. -/
def Pending (length : Nat) (ts : List Token) (s : TokenStream) : Prop :=
  ∃ k : Cursor, s = ofCursor k ∧ k.tokens = ts ∧ k.stop = length

theorem pending_ofSource (source : String) :
    Pending source.utf8ByteSize (Token.scan source) (ofSource source) := by
  refine ⟨Cursor.ofSource source, rfl, rfl, ?_⟩
  rw [Cursor.stop, Cursor.ofSource, Text.width_toList, Nat.zero_add]

namespace Pending

variable {length : Nat} {t : Token} {ts : List Token} {s : TokenStream}

/-- A stream without tokens hands out the end token and is as it was. -/
theorem exhausted (h : Pending length [] s) : s.nextToken = (Token.endOf length, s) := by
  obtain ⟨k, rfl, hnone, rfl⟩ := h
  -- The place behind the end is the end again, with nothing left to skip.
  have hhere := Cursor.next_of_tokens_nil hnone
  have hafter := Cursor.next_of_tokens_nil (Cursor.tokens_nil k.stop)
  have hstop : Cursor.stop ⟨k.stop, []⟩ = k.stop := Nat.add_zero _
  rw [hstop] at hafter
  rw [nextToken, ofCursor, hhere, ofCursor, hafter]

/-- A stream with tokens holds the first of them, and the others are behind it. -/
theorem advances (h : Pending length (t :: ts) s) :
    s.current = t ∧ t.kind ≠ .eof ∧ Pending length ts s.nextToken.2 := by
  obtain ⟨k, rfl, htokens, rfl⟩ := h
  obtain ⟨hfirst, hrest⟩ := Cursor.next_of_tokens_cons htokens
  refine ⟨hfirst, ?_, k.next.2, rfl, hrest, k.stop_next⟩
  exact Cursor.kind_ne_eof (by rw [htokens]; exact List.mem_cons_self)

theorem hasMore_eq (h : Pending length ts s) : s.hasMore = decide (0 < ts.length) := by
  unfold hasMore
  cases ts with
  | nil =>
      have hcurrent : s.current = Token.endOf length := congrArg Prod.fst h.exhausted
      rw [hcurrent]
      rfl
  | cons t ts =>
      obtain ⟨hcurrent, hkind, -⟩ := h.advances
      simp [hcurrent, hkind]

/-- A request of an exhausted stream changes nothing. -/
theorem ask_exhausted (h : Pending length [] s) (r : Request) :
    s.ask r = (r.reply [] length 0, s) := by
  have hmore : s.hasMore = false := h.hasMore_eq
  cases r with
  | hasMore => rw [ask, hmore]; rfl
  | nextToken => rw [ask, h.exhausted]; rfl
  | next => rw [ask, next?, hmore]; rfl

/-- **A request is replied to as the pending tokens tell, and takes off what it hands out.** -/
theorem ask_spec (h : Pending length ts s) (r : Request) :
    (s.ask r).1 = r.reply ts length 0 ∧
      ∃ rest, (s.ask r).1.token?.toList ++ rest = ts ∧ Pending length rest (s.ask r).2 := by
  cases ts with
  | nil =>
      rw [h.ask_exhausted r]
      refine ⟨rfl, [], ?_, h⟩
      cases r <;> rfl
  | cons t ts =>
      obtain ⟨hcurrent, hkind, hrest⟩ := h.advances
      have hmore : s.hasMore = true := h.hasMore_eq
      cases r with
      | hasMore => exact ⟨congrArg Reply.more hmore, t :: ts, rfl, h⟩
      | nextToken =>
          refine ⟨congrArg Reply.token hcurrent, ts, ?_, hrest⟩
          simp [ask, nextToken, Reply.token?, hcurrent, hkind]
      | next =>
          have hnext : s.next? = (some t, s.nextToken.2) := by
            rw [next?, if_pos hmore, nextToken, hcurrent]
          rw [ask, hnext]
          exact ⟨rfl, ts, rfl, hrest⟩

/-- Whatever was asked, what was handed out and what is pending make up the tokens. -/
theorem after (h : Pending length ts s) (rs : List Request) :
    ∃ rest, handedOut (s.replies rs) ++ rest = ts ∧ Pending length rest (s.after rs) := by
  induction rs generalizing s ts with
  | nil => exact ⟨ts, rfl, h⟩
  | cons r rs ih =>
      obtain ⟨-, ts', rfl, hask⟩ := h.ask_spec r
      obtain ⟨rest, rfl, hrest⟩ := ih hask
      refine ⟨rest, ?_, hrest⟩
      rw [replies, handedOut_cons, List.append_assoc]

/-- **Every reply is told by the number of tokens handed out before it.** -/
theorem getElem?_replies (h : Pending length ts s) (rs : List Request) (i : Nat) :
    (s.replies rs)[i]? =
      rs[i]?.map (Request.reply ts length (handedOut ((s.replies rs).take i)).length) := by
  induction rs generalizing s ts i with
  | nil => rfl
  | cons r rs ih =>
      obtain ⟨hreply, ts', hparts, hask⟩ := h.ask_spec r
      cases i with
      | zero => exact congrArg some hreply
      | succ i =>
          -- What this reply hands out is off the list for the others, and in the count.
          rw [replies, List.getElem?_cons_succ, List.getElem?_cons_succ, List.take_succ_cons,
            handedOut_cons, List.length_append, ih hask i, ← hparts]
          exact congrArg (rs[i]?.map ·) (funext fun r' => (r'.reply_append _ ts' length _).symm)

/-- A request that is only a look, or comes after the last token, leaves the stream as it is. -/
theorem ask_same (h : Pending length ts s) {r : Request} (hr : r = .hasMore ∨ ts = []) :
    (s.ask r).2 = s := by
  rcases hr with rfl | rfl
  · rfl
  · rw [h.ask_exhausted r]

end Pending

/--
**A stream is the plain list of the tokens of its source.**

Whatever its reader asks for, in whatever order, each reply depends only on the number `j`
of tokens handed out so far.  There is more exactly if `j` is less than the number of
tokens; the next token is the one at place `j`, and past the last one it is the end token
with the length of the source as its offset, or nothing, as was asked.  So the tokens
handed out are the first tokens of the source.  To ask whether there is more, and to ask
for anything past the last token, changes no later reply.
-/
theorem stream_is_plain_list (source : String) :
    (∀ (requests : List Request) (i : Nat),
      ((ofSource source).replies requests)[i]? = requests[i]?.map
        (Request.reply (Token.scan source) source.utf8ByteSize
          (handedOut (((ofSource source).replies requests).take i)).length)) ∧
    (∀ requests : List Request,
      handedOut ((ofSource source).replies requests) <+: Token.scan source) ∧
    ∀ (front back : List Request) (r : Request),
      r = .hasMore ∨
        (handedOut ((ofSource source).replies front)).length = (Token.scan source).length →
      ((ofSource source).replies (front ++ r :: back)).drop (front.length + 1) =
        ((ofSource source).replies (front ++ back)).drop front.length := by
  have hstart := pending_ofSource source
  refine ⟨hstart.getElem?_replies, ?_, ?_⟩
  · intro requests
    obtain ⟨rest, hparts, -⟩ := hstart.after requests
    exact ⟨rest, hparts⟩
  · intro front back r hr
    obtain ⟨rest, hparts, hpending⟩ := hstart.after front
    have hsame : (((ofSource source).after front).ask r).2 = (ofSource source).after front := by
      refine hpending.ask_same (hr.imp_right fun hall => ?_)
      rw [← hparts, List.length_append] at hall
      exact List.eq_nil_of_length_eq_zero (by omega)
    rw [replies_append, replies_append, replies, hsame, ← length_replies (ofSource source) front,
      List.drop_length_add_append, List.drop_left, List.drop_one, List.tail_cons]

/-- A word and an unclosed text, asked for in both ways, with requests past the end. -/
theorem stream_is_plain_list_unclosed :
    let s := ofSource "dup \"é"
    let front := [.hasMore, .next, .hasMore, .nextToken]
    let back := [.next, .nextToken, .hasMore]
    (handedOut (s.replies front)).length = (Token.scan "dup \"é").length ∧
      (s.replies front)[3]? = some (.token ⟨.text, "é", 4⟩) ∧
      (s.replies (front ++ .nextToken :: back)).drop 5 = (s.replies (front ++ back)).drop 4 ∧
      (s.replies (front ++ back)).drop 4 = [.item none, .token ⟨.eof, "", 7⟩, .more false] := by
  intro s front back
  have hscan : Token.scan "dup \"é" = [⟨.word, "dup", 0⟩, ⟨.text, "é", 4⟩] := by decide +kernel
  have hall : (handedOut (s.replies front)).length = (Token.scan "dup \"é").length := by
    rw [hscan]
    decide +kernel
  obtain ⟨hreplies, -, hlater⟩ := stream_is_plain_list "dup \"é"
  refine ⟨hall, ?_, hlater front back .nextToken (.inr hall), by decide +kernel⟩
  rw [hreplies front 3, hscan]
  decide +kernel

end TokenStream

end DualStack
