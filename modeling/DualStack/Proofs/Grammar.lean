/-
The grammar of programs, and what the parser makes of it.

    program     → item*
    item        → WORD | NUMBER | STRING | "var" WORD
                | ":" WORD item* ";"
                | "if" item* ( "else" item* )? "then"
                | "for" item* "end"
                | "[" item* "]" | "{" item* "}"

`Items` is that grammar as a relation between tokens and trees.  The parser never
sees a tree grow: it keeps a stack of open scopes and, on the side, puts every
definition that closes into the forest.  What ties the two together is
`Parser.feed`, the state the parser is in after it has completed some nodes.

Reading an item is the same as feeding its node, by induction on the derivation
(`run_items`).  Conversely the tokens of a run that ends well split into a run of
items and a token that closes something, by strong induction on their number
(`run_split`); at the top level nothing can be closed, so all of it is items.
-/
import Mathlib.Data.List.Induction
import DualStack.Node.Parse

namespace DualStack

/-! ### Nodes inside nodes -/

namespace Node

mutual

/-- The nodes strictly inside a node, in the order in which they close. -/
def inside : Node → List Node
  | definition _ body => closing body
  | conditional thenBody elseBody => closing thenBody ++ closing elseBody
  | loop body => closing body
  | collection _ body => closing body
  | _ => []

/-- The nodes of a body and all nodes inside them, in the order in which they close. -/
def closing : List Node → List Node
  | [] => []
  | n :: ns => n.inside ++ n :: closing ns

end

/-- A body closes its first node, behind what is inside that one, and then the others. -/
theorem closing_cons (n : Node) (ns : List Node) :
    closing (n :: ns) = (n.inside ++ [n]) ++ closing ns := by
  simp [closing]

/-- All nodes inside a node, and the node itself, have a property. -/
def Every (P : Node → Prop) (n : Node) : Prop :=
  ∀ d ∈ n.inside ++ [n], P d

theorem every_iff {P : Node → Prop} {n : Node} : n.Every P ↔ (∀ d ∈ n.inside, P d) ∧ P n := by
  unfold Every
  rw [List.forall_mem_append]
  simp

theorem every_leaf {P : Node → Prop} {n : Node} (h : n.inside = []) : n.Every P ↔ P n := by
  rw [every_iff, h]
  simp

theorem every_scope {P : Node → Prop} {n : Node} (h : P n) : n.Every P ↔ ∀ d ∈ n.inside, P d := by
  rw [every_iff]
  exact and_iff_left h

theorem forall_closing_cons {P : Node → Prop} {n : Node} {ns : List Node} :
    (∀ d ∈ closing (n :: ns), P d) ↔ n.Every P ∧ ∀ d ∈ closing ns, P d := by
  rw [closing_cons, List.forall_mem_append]
  rfl

/-- Whether a node defines a word. -/
def isDefinition : Node → Bool
  | definition _ _ => true
  | _ => false

/-- The definitions strictly inside a node, in the order in which they close. -/
def nested (n : Node) : List Node :=
  n.inside.filter isDefinition

/-- The forest of some top-level nodes: each follows the definitions inside it. -/
def surfaced (ns : List Node) : List Node :=
  ns.flatMap fun n => n.nested ++ [n]

theorem surfaced_cons (n : Node) (ns : List Node) :
    surfaced (n :: ns) = n.nested ++ n :: surfaced ns := by
  simp [surfaced]

theorem surfaced_concat (ns : List Node) (n : Node) :
    surfaced (ns ++ [n]) = surfaced ns ++ n.nested ++ [n] := by
  simp [surfaced]

/-- The forest tells the top-level nodes: its last node is one of them, and what stands in
front of that one is known from it. -/
theorem surfaced_injective {ns ms : List Node} (h : surfaced ns = surfaced ms) : ns = ms := by
  induction ns using List.reverseRecOn generalizing ms with
  | nil =>
      induction ms using List.reverseRecOn with
      | nil => rfl
      | append_singleton ms m _ =>
          rw [surfaced_concat] at h
          exact absurd h (by simp [surfaced])
  | append_singleton ns n ih =>
      induction ms using List.reverseRecOn with
      | nil =>
          rw [surfaced_concat] at h
          exact absurd h (by simp [surfaced])
      | append_singleton ms m _ =>
          rw [surfaced_concat, surfaced_concat] at h
          obtain ⟨hfront, hlast⟩ := List.append_inj' h rfl
          obtain rfl : n = m := by simpa using hlast
          rw [ih (List.append_cancel_right hfront)]

end Node

/-! ### The grammar -/

/-- The token that opens a collection literal. -/
def Shape.opener : Shape → TokenKind
  | list => .leftBracket
  | vector => .leftBrace

/-- The token that closes a construct. -/
def Construct.closer : Construct → TokenKind
  | definition => .semicolon
  | conditional => .thenKeyword
  | loop => .endKeyword
  | list => .rightBracket
  | vector => .rightBrace

/-- The construct a collection literal is. -/
def Shape.construct : Shape → Construct
  | list => .list
  | vector => .vector

mutual

/-- The tokens are one item of the grammar, and the node is its tree. -/
inductive Item : List Token → Node → Prop
  | word {t : Token} (ht : t.kind = .word) : Item [t] (Node.ofWord t.lexeme)
  | number {t : Token} {x : Float} (ht : t.kind = .number x) : Item [t] (.number x)
  | text {t : Token} (ht : t.kind = .text) :
      Item [t] (.text (String.ofList (Text.unescape t.lexeme.toList)))
  | declaration {t name : Token} (ht : t.kind = .varKeyword) (hname : name.kind = .word) :
      Item [t, name] (.declaration name.lexeme)
  | definition {t name close : Token} {ts : List Token} {ns : List Node} (ht : t.kind = .colon)
      (hname : name.kind = .word) (hbody : Items ts ns)
      (hclose : close.kind = Construct.definition.closer) :
      Item (t :: name :: (ts ++ [close])) (.definition name.lexeme ns)
  | conditional {t close : Token} {ts : List Token} {ns : List Node} (ht : t.kind = .ifKeyword)
      (hthen : Items ts ns) (hclose : close.kind = Construct.conditional.closer) :
      Item (t :: (ts ++ [close])) (.conditional ns [])
  | alternative {t middle close : Token} {ts us : List Token} {ns ms : List Node}
      (ht : t.kind = .ifKeyword) (hthen : Items ts ns) (hmiddle : middle.kind = .elseKeyword)
      (helse : Items us ms) (hclose : close.kind = Construct.conditional.closer) :
      Item (t :: (ts ++ middle :: (us ++ [close]))) (.conditional ns ms)
  | loop {t close : Token} {ts : List Token} {ns : List Node} (ht : t.kind = .forKeyword)
      (hbody : Items ts ns) (hclose : close.kind = Construct.loop.closer) :
      Item (t :: (ts ++ [close])) (.loop ns)
  | collection {shape : Shape} {t close : Token} {ts : List Token} {ns : List Node}
      (ht : t.kind = shape.opener) (hbody : Items ts ns)
      (hclose : close.kind = shape.construct.closer) :
      Item (t :: (ts ++ [close])) (.collection shape ns)

/-- The tokens are a run of items, and the nodes are their trees. -/
inductive Items : List Token → List Node → Prop
  | nil : Items [] []
  | cons {ts us : List Token} {n : Node} {ns : List Node} (hitem : Item ts n)
      (hitems : Items us ns) : Items (ts ++ us) (n :: ns)

end

theorem Items.append : ∀ {ts us : List Token} {ns ms : List Node}, Items ts ns → Items us ms →
    Items (ts ++ us) (ns ++ ms)
  | _, _, _, _, .nil, hms => hms
  | _, _, _, _, .cons hitem hitems, hms => by
      rw [List.append_assoc]
      exact .cons hitem (hitems.append hms)

theorem Items.single {ts : List Token} {n : Node} (h : Item ts n) : Items ts [n] := by
  have hitems := Items.cons h .nil
  rwa [List.append_nil] at hitems

namespace Parser

/-! ### Completing nodes

A completed node goes to the innermost open scope or to the forest, after the
definitions inside it, which have been put into the forest before.
-/

/-- The parser after it has completed a node. -/
def complete (n : Node) (p : Parser) : Parser :=
  insert n (surface n { p with forest := n.nested.reverse ++ p.forest })

/-- The parser after it has completed some nodes. -/
def feed (ns : List Node) (p : Parser) : Parser :=
  ns.foldl (fun p n => p.complete n) p

/-- A scope that has been given some nodes. -/
def extend (ns : List Node) : Scope → Scope
  | .definition name body => .definition name (ns.reverse ++ body)
  | .thenBranch body => .thenBranch (ns.reverse ++ body)
  | .elseBranch thenBody body => .elseBranch thenBody (ns.reverse ++ body)
  | .loop body => .loop (ns.reverse ++ body)
  | .collection shape body => .collection shape (ns.reverse ++ body)

theorem extend_nil (s : Scope) : extend [] s = s := by
  cases s <;> rfl

theorem extend_append (n : Node) (ns : List Node) (s : Scope) :
    extend ns (s.append n) = extend (n :: ns) s := by
  cases s <;> simp [extend, Scope.append]

theorem feed_nil (p : Parser) : p.feed [] = p := rfl

theorem feed_cons (n : Node) (ns : List Node) (p : Parser) :
    p.feed (n :: ns) = (p.complete n).feed ns := rfl

theorem complete_top (n : Node) (forest : List Node) :
    complete n ⟨forest, []⟩ = ⟨n :: (n.nested.reverse ++ forest), []⟩ := by
  cases n <;> rfl

theorem complete_open (n : Node) (forest : List Node) (s : Scope) (offset : Nat)
    (outer : List OpenScope) :
    complete n ⟨forest, ⟨s, offset⟩ :: outer⟩
      = ⟨((n.inside ++ [n]).filter Node.isDefinition).reverse ++ forest,
          ⟨s.append n, offset⟩ :: outer⟩ := by
  cases n <;>
    simp [complete, surface, insert, Node.nested, Node.isDefinition, Node.inside, List.filter_cons]

theorem feed_top (ns : List Node) (forest : List Node) :
    feed ns ⟨forest, []⟩ = ⟨(Node.surfaced ns).reverse ++ forest, []⟩ := by
  induction ns generalizing forest with
  | nil => rfl
  | cons n ns ih =>
      rw [feed_cons, complete_top, ih, Node.surfaced_cons]
      simp

theorem feed_open (ns : List Node) (forest : List Node) (s : Scope) (offset : Nat)
    (outer : List OpenScope) :
    feed ns ⟨forest, ⟨s, offset⟩ :: outer⟩
      = ⟨((Node.closing ns).filter Node.isDefinition).reverse ++ forest,
          ⟨extend ns s, offset⟩ :: outer⟩ := by
  induction ns generalizing forest s with
  | nil => rw [feed_nil, extend_nil]; rfl
  | cons n ns ih =>
      rw [feed_cons, complete_open, ih, extend_append, Node.closing_cons]
      simp only [List.filter_append, List.reverse_append, List.append_assoc]

/-- A node that contains nothing is simply inserted. -/
theorem complete_leaf {n : Node} (hinside : n.inside = []) (hdef : n.isDefinition = false)
    (p : Parser) : p.complete n = p.insert n := by
  cases n <;> simp_all [complete, surface, Node.nested, Node.isDefinition]

/-! ### One token

The loop of the parser looks one token ahead after `var` and `:`, and nowhere else.
-/

variable {p : Parser} {t name : Token} {ts : List Token}

theorem run_declaration (ht : t.kind = .varKeyword) (hname : name.kind = .word) :
    p.run (t :: name :: ts) = (p.insert (.declaration name.lexeme)).run ts := by
  obtain ⟨kind, lexeme, offset⟩ := name
  obtain rfl : kind = .word := hname
  simp only [run, ht]

theorem run_definition (ht : t.kind = .colon) (hname : name.kind = .word) :
    p.run (t :: name :: ts) = (p.enter (.definition name.lexeme []) t.offset).run ts := by
  obtain ⟨kind, lexeme, offset⟩ := name
  obtain rfl : kind = .word := hname
  simp only [run, ht]

theorem run_end (ht : t.kind = .eof) : p.run (t :: ts) = p.finish := by
  simp only [run, ht]

/-- Unless it takes the name behind it along, a token is taken in by one step. -/
theorem run_unnamed (hend : t.kind ≠ .eof)
    (hname : t.kind = .varKeyword ∨ t.kind = .colon → ∀ name ∈ ts.head?, name.kind ≠ .word) :
    p.run (t :: ts) = (p.step t).bind (·.run ts) := by
  rw [run.eq_def p (t :: ts)]
  dsimp only
  split
  · exact absurd ‹_› hend
  · exact absurd rfl (hname (Or.inl ‹_›) _ rfl)
  · exact absurd rfl (hname (Or.inr ‹_›) _ rfl)
  · cases p.step t <;> rfl

theorem run_step (hend : t.kind ≠ .eof) (hvar : t.kind ≠ .varKeyword) (hcolon : t.kind ≠ .colon) :
    p.run (t :: ts) = (p.step t).bind (·.run ts) :=
  run_unnamed hend fun h => (h.elim hvar hcolon).elim

/-- Without a name behind it, a token that needs one is an error. -/
theorem step_unnamed (ht : t.kind = .varKeyword ∨ t.kind = .colon) :
    ∃ e, p.step t = .error e := by
  rcases ht with ht | ht <;> exact ⟨_, by rw [step, ht]⟩

theorem run_leaf {n : Node} (hend : t.kind ≠ .eof) (hvar : t.kind ≠ .varKeyword)
    (hcolon : t.kind ≠ .colon) (hstep : p.step t = .ok (p.insert n)) (hinside : n.inside = [])
    (hdef : n.isDefinition = false) : p.run (t :: ts) = (p.complete n).run ts := by
  rw [run_step hend hvar hcolon, hstep, complete_leaf hinside hdef]
  rfl

theorem closer_ne {k : Construct} (ht : t.kind = k.closer) :
    t.kind ≠ .eof ∧ t.kind ≠ .varKeyword ∧ t.kind ≠ .colon := by
  rw [ht]
  cases k <;> decide

theorem step_closer {k : Construct} (ht : t.kind = k.closer) : p.step t = p.close t k := by
  rw [step, ht]
  cases k <;> rfl

theorem extend_construct (ns : List Node) (s : Scope) : (extend ns s).construct = s.construct := by
  cases s with
  | collection shape body => cases shape <;> rfl
  | _ => rfl

/-- The token that closes a scope completes the node the scope became, provided that the
definitions put into the forest since it was opened are those inside that node. -/
theorem run_body (found : List Node) {s : Scope} {n : Node} {ns : List Node} {offset : Nat}
    (hclose : t.kind = s.construct.closer) (hn : (extend ns s).toNode = n)
    (hfound : n.nested = found ++ (Node.closing ns).filter Node.isDefinition) :
    (feed ns ⟨found.reverse ++ p.forest, ⟨s, offset⟩ :: p.scopes⟩).run (t :: ts)
      = (p.complete n).run ts := by
  obtain ⟨hend, hvar, hcolon⟩ := closer_ne hclose
  rw [feed_open, run_step hend hvar hcolon, step_closer hclose, close]
  dsimp only
  rw [if_pos (extend_construct ns s), hn, complete, hfound, List.reverse_append, List.append_assoc]
  rfl

/-- `else` turns a conditional to its second branch. -/
theorem run_else {forest body : List Node} {offset : Nat} {outer : List OpenScope}
    (ht : t.kind = .elseKeyword) :
    run ⟨forest, ⟨.thenBranch body, offset⟩ :: outer⟩ (t :: ts)
      = run ⟨forest, ⟨.elseBranch body [], offset⟩ :: outer⟩ ts := by
  rw [run_step (by simp [ht]) (by simp [ht]) (by simp [ht]), step, ht]
  rfl

/-! ### Every derivation is accepted -/

theorem step_opener {shape : Shape} (ht : t.kind = shape.opener) :
    p.step t = .ok (p.enter (.collection shape []) t.offset) := by
  rw [step, ht]
  cases shape <;> rfl

theorem opener_ne {shape : Shape} (ht : t.kind = shape.opener) :
    t.kind ≠ .eof ∧ t.kind ≠ .varKeyword ∧ t.kind ≠ .colon := by
  rw [ht]
  cases shape <;> decide

theorem ofWord_leaf (lexeme : String) :
    (Node.ofWord lexeme).inside = [] ∧ (Node.ofWord lexeme).isDefinition = false := by
  unfold Node.ofWord
  split <;> exact ⟨rfl, rfl⟩

mutual

/-- Reading an item completes its node. -/
theorem run_item : ∀ {ts : List Token} {n : Node}, Item ts n → ∀ (p : Parser) (rest : List Token),
    p.run (ts ++ rest) = (p.complete n).run rest
  | _, _, .word ht, p, rest =>
      run_leaf (by simp [ht]) (by simp [ht]) (by simp [ht]) (by rw [step, ht])
        (ofWord_leaf _).1 (ofWord_leaf _).2
  | _, _, .number ht, p, rest =>
      run_leaf (by simp [ht]) (by simp [ht]) (by simp [ht]) (by rw [step, ht]) rfl rfl
  | _, _, .text ht, p, rest =>
      run_leaf (by simp [ht]) (by simp [ht]) (by simp [ht]) (by rw [step, ht]) rfl rfl
  | _, _, .declaration ht hname, p, rest => by
      rw [complete_leaf rfl rfl]
      exact run_declaration ht hname
  | _, _, .definition ht hname hbody hclose, p, rest => by
      rw [List.cons_append, List.cons_append, List.append_assoc, run_definition ht hname,
        run_items hbody]
      exact run_body [] hclose (by simp [extend, Scope.toNode]) rfl
  | _, _, .conditional ht hthen hclose, p, rest => by
      rw [List.cons_append, List.append_assoc,
        run_step (by simp [ht]) (by simp [ht]) (by simp [ht]), step, ht]
      show (p.enter (.thenBranch []) _).run _ = _
      rw [run_items hthen]
      refine run_body [] hclose (by simp [extend, Scope.toNode]) ?_
      simp [Node.nested, Node.inside, Node.closing]
  | _, _, .alternative ht hthen hmiddle helse hclose, p, rest => by
      rw [List.cons_append, List.append_assoc, List.cons_append, List.append_assoc,
        run_step (by simp [ht]) (by simp [ht]) (by simp [ht]), step, ht]
      show (p.enter (.thenBranch []) _).run _ = _
      rw [run_items hthen, enter, feed_open]
      show run ⟨_, ⟨.thenBranch _, _⟩ :: _⟩ _ = _
      rw [run_else hmiddle, run_items helse]
      refine run_body _ hclose (by simp [extend, Scope.toNode]) ?_
      simp [Node.nested, Node.inside]
  | _, _, .loop ht hbody hclose, p, rest => by
      rw [List.cons_append, List.append_assoc,
        run_step (by simp [ht]) (by simp [ht]) (by simp [ht]), step, ht]
      show (p.enter (.loop []) _).run _ = _
      rw [run_items hbody]
      exact run_body [] hclose (by simp [extend, Scope.toNode]) rfl
  | _, _, @Item.collection shape _ _ _ _ ht hbody hclose, p, rest => by
      obtain ⟨hend, hvar, hcolon⟩ := opener_ne ht
      rw [List.cons_append, List.append_assoc, run_step hend hvar hcolon, step_opener ht]
      show (p.enter (.collection shape []) _).run _ = _
      rw [run_items hbody]
      refine run_body [] ?_ (by simp [extend, Scope.toNode]) rfl
      rw [hclose]
      cases shape <;> rfl

/-- Reading a run of items completes their nodes. -/
theorem run_items : ∀ {ts : List Token} {ns : List Node}, Items ts ns →
    ∀ (p : Parser) (rest : List Token), p.run (ts ++ rest) = (p.feed ns).run rest
  | _, _, .nil, _, _ => rfl
  | _, _, .cons hitem hitems, p, rest => by
      rw [List.append_assoc, run_item hitem, run_items hitems, feed_cons]

end

/-! ### Everything accepted is a derivation

A run that ends well reads items until it meets a token that no item starts with:
the end, an `else`, or a token that closes something.
-/

/-- No item starts here. -/
def Stops (ts : List Token) : Prop :=
  ∀ t ∈ ts.head?, t.kind = .eof ∨ t.kind = .elseKeyword ∨ ∃ k : Construct, t.kind = k.closer

variable {forest result : List Node}

/-- At the top level only the end of the tokens stops a run that ends well. -/
theorem of_run_top (hstop : Stops ts) (h : run ⟨forest, []⟩ ts = .ok result) :
    result = forest.reverse ∧ ∀ t ∈ ts.head?, t.kind = .eof := by
  cases ts with
  | nil => exact ⟨(Except.ok.inj h).symm, by simp⟩
  | cons t ts =>
      rcases hstop t rfl with hend | helse | ⟨k, hk⟩
      · rw [run_end hend] at h
        exact ⟨(Except.ok.inj h).symm, by simpa using hend⟩
      · rw [run_step (by simp [helse]) (by simp [helse]) (by simp [helse]), step, helse] at h
        exact absurd h (by simp [switch, Except.bind])
      · obtain ⟨hend, hvar, hcolon⟩ := closer_ne hk
        rw [run_step hend hvar hcolon, step_closer hk, close] at h
        exact absurd h (by simp [Except.bind])

/-- Inside a scope a run that ends well goes on only past the token that closes the scope,
or past the `else` of a conditional that has had none. -/
theorem of_run_open {s : Scope} {offset : Nat} {outer : List OpenScope} (hstop : Stops ts)
    (h : run ⟨forest, ⟨s, offset⟩ :: outer⟩ ts = .ok result) :
    ∃ t rest, ts = t :: rest ∧
      (t.kind = s.construct.closer ∨ t.kind = .elseKeyword ∧ ∃ body, s = .thenBranch body) := by
  cases ts with
  | nil => exact absurd h (by simp [run, finish])
  | cons t ts =>
      refine ⟨t, ts, rfl, ?_⟩
      rcases hstop t rfl with hend | helse | ⟨k, hk⟩
      · rw [run_end hend] at h
        exact absurd h (by simp [finish])
      · rw [run_step (by simp [helse]) (by simp [helse]) (by simp [helse]), step, helse] at h
        cases s with
        | thenBranch body => exact Or.inr ⟨helse, body, rfl⟩
        | _ => exact absurd h (by simp [switch, Except.bind])
      · obtain ⟨hend, hvar, hcolon⟩ := closer_ne hk
        rw [run_step hend hvar hcolon, step_closer hk, close] at h
        dsimp only at h
        by_cases hmatch : s.construct = k
        · exact Or.inl (hmatch ▸ hk)
        · rw [if_neg hmatch] at h
          exact absurd h (by simp [Except.bind])

/-- The tokens are a run of items and some others; after the items the parser, fed with
their nodes, stops at a token no item starts with and still ends well. -/
def Splits (p : Parser) (ts : List Token) (result : List Node) : Prop :=
  ∃ us ns rest, ts = us ++ rest ∧ Items us ns ∧ Stops rest ∧ (p.feed ns).run rest = .ok result

theorem Splits.stop (hstop : Stops ts) (h : p.run ts = .ok result) : Splits p ts result :=
  ⟨[], [], ts, rfl, .nil, hstop, h⟩

/-- An item in front of tokens that split. -/
theorem Splits.item {us rest : List Token} {n : Node} (hitem : Item us n)
    (hrest : Splits (p.complete n) rest result) : Splits p (us ++ rest) result := by
  obtain ⟨vs, ns, rest, rfl, hitems, hstop, hrun⟩ := hrest
  exact ⟨us ++ vs, n :: ns, rest, by rw [List.append_assoc], .cons hitem hitems, hstop, hrun⟩

/-- Inside a scope the token behind the items closes the scope or is its `else`. -/
theorem Splits.scope {s : Scope} {offset : Nat} {outer : List OpenScope}
    (h : Splits ⟨forest, ⟨s, offset⟩ :: outer⟩ ts result) :
    ∃ us ns t rest, ts = us ++ t :: rest ∧ Items us ns ∧
      (feed ns ⟨forest, ⟨s, offset⟩ :: outer⟩).run (t :: rest) = .ok result ∧
      (t.kind = s.construct.closer ∨ t.kind = .elseKeyword ∧ ∃ body, s = .thenBranch body) := by
  obtain ⟨us, ns, rest, rfl, hitems, hstop, hrun⟩ := h
  have hopen := hrun
  rw [feed_open] at hopen
  obtain ⟨t, rest, rfl, hclose⟩ := of_run_open hstop hopen
  refine ⟨us, ns, t, rest, rfl, hitems, hrun, ?_⟩
  rcases hclose with hclose | ⟨helse, body, hbody⟩
  · exact Or.inl (extend_construct ns s ▸ hclose)
  · cases s with
    | thenBranch body => exact Or.inr ⟨helse, body, rfl⟩
    | _ => exact absurd hbody (by simp [extend])

/-- A token that needs a name has one, if the run ends well. -/
theorem name_of_run (ht : t.kind = .varKeyword ∨ t.kind = .colon)
    (h : p.run (t :: ts) = .ok result) : ∃ name rest, ts = name :: rest ∧ name.kind = .word := by
  by_cases hname : ∀ name ∈ ts.head?, name.kind ≠ .word
  · obtain ⟨e, he⟩ := step_unnamed (p := p) ht
    rw [run_unnamed (by rcases ht with ht | ht <;> simp [ht]) fun _ => hname, he] at h
    exact absurd h (by simp [Except.bind])
  · cases ts with
    | nil => exact absurd hname (by simp)
    | cons name rest => exact ⟨name, rest, rfl, by simpa using hname⟩

/-- What the induction knows about shorter runs. -/
def SplitsUpTo (size : Nat) (result : List Node) : Prop :=
  ∀ (ts : List Token) (p : Parser), ts.length ≤ size → p.run ts = .ok result → Splits p ts result

namespace SplitsUpTo

variable {size offset : Nat}

/-- Once the first item is known, what follows it splits. -/
theorem first (ih : SplitsUpTo size result) {us rest : List Token} {n : Node} (hitem : Item us n)
    (hrest : rest.length ≤ size) (h : p.run (us ++ rest) = .ok result) :
    Splits p (us ++ rest) result := by
  rw [run_item hitem] at h
  exact .item hitem (ih rest _ hrest h)

/-- A scope with a single body is closed by its own token, behind the items of the body. -/
theorem body (ih : SplitsUpTo size result) {s : Scope} (hs : ∀ body, s ≠ .thenBranch body)
    (hsize : ts.length ≤ size) (h : (p.enter s offset).run ts = .ok result) :
    ∃ us ns close rest, ts = us ++ close :: rest ∧ Items us ns ∧
      close.kind = s.construct.closer ∧ rest.length ≤ size := by
  obtain ⟨us, ns, close, rest, rfl, hitems, -, hclose⟩ := (ih ts _ hsize h).scope
  rcases hclose with hclose | ⟨-, body, hbody⟩
  · exact ⟨us, ns, close, rest, rfl, hitems, hclose, by simp at hsize; omega⟩
  · exact absurd hbody (hs body)

/-- A conditional is closed behind its first branch, or has an `else` there and is closed
behind the second. -/
theorem branches (ih : SplitsUpTo size result) (ht : t.kind = .ifKeyword)
    (hsize : ts.length ≤ size) (h : (p.enter (.thenBranch []) offset).run ts = .ok result) :
    ∃ us n rest, t :: ts = us ++ rest ∧ Item us n ∧ rest.length ≤ size := by
  obtain ⟨us, ns, middle, rest, rfl, hthen, hrun, hclose⟩ := (ih ts _ hsize h).scope
  simp only [List.length_append, List.length_cons] at hsize
  rcases hclose with hclose | ⟨hmiddle, -⟩
  · exact ⟨_, _, rest, by simp, .conditional ht hthen hclose, by omega⟩
  · rw [feed_open] at hrun
    have helse : run ⟨_, ⟨.elseBranch (ns.reverse ++ []) [], offset⟩ :: p.scopes⟩ rest
        = .ok result := (run_else hmiddle).symm.trans hrun
    obtain ⟨vs, ms, close, rest, rfl, hitems, -, hclose⟩ :=
      (ih rest _ (by omega) helse).scope
    simp only [List.length_append, List.length_cons] at hsize
    rcases hclose with hclose | ⟨-, body, hbody⟩
    · exact ⟨_, _, rest, by simp, .alternative ht hthen hmiddle hitems hclose, by omega⟩
    · exact absurd hbody (by simp)

/-- A collection literal. -/
theorem literal (ih : SplitsUpTo size result) (shape : Shape) (ht : t.kind = shape.opener)
    (hsize : ts.length ≤ size) (h : p.run (t :: ts) = .ok result) : Splits p (t :: ts) result := by
  obtain ⟨hend, hvar, hcolon⟩ := opener_ne ht
  have hopen : (p.enter (.collection shape []) t.offset).run ts = .ok result := by
    rwa [run_step hend hvar hcolon, step_opener ht] at h
  obtain ⟨us, ns, close, rest, rfl, hitems, hclose, hrest⟩ := ih.body (by simp) hsize hopen
  have hsplit : t :: (us ++ close :: rest) = (t :: (us ++ [close])) ++ rest := by simp
  have hconstruct : close.kind = shape.construct.closer := by
    rw [hclose]
    cases shape <;> rfl
  rw [hsplit] at h ⊢
  exact ih.first (.collection ht hitems hconstruct) hrest h

theorem succ (ih : SplitsUpTo size result) : SplitsUpTo (size + 1) result := by
  intro ts p hsize h
  cases ts with
  | nil => exact .stop (by simp [Stops]) h
  | cons t ts =>
      have hshort : ts.length ≤ size := Nat.le_of_succ_le_succ hsize
      cases hkind : t.kind with
      | word => exact ih.first (.word hkind) hshort h
      | number x => exact ih.first (.number hkind) hshort h
      | text => exact ih.first (.text hkind) hshort h
      | eof => exact .stop (by simp [Stops, hkind]) h
      | elseKeyword => exact .stop (by simp [Stops, hkind]) h
      | semicolon => exact .stop (by simpa [Stops, hkind] using ⟨.definition, rfl⟩) h
      | thenKeyword => exact .stop (by simpa [Stops, hkind] using ⟨.conditional, rfl⟩) h
      | endKeyword => exact .stop (by simpa [Stops, hkind] using ⟨.loop, rfl⟩) h
      | rightBracket => exact .stop (by simpa [Stops, hkind] using ⟨.list, rfl⟩) h
      | rightBrace => exact .stop (by simpa [Stops, hkind] using ⟨.vector, rfl⟩) h
      | varKeyword =>
          obtain ⟨name, rest, rfl, hname⟩ := name_of_run (Or.inl hkind) h
          exact ih.first (.declaration hkind hname) (by simp at hshort; omega) h
      | colon =>
          obtain ⟨name, rest, rfl, hname⟩ := name_of_run (Or.inr hkind) h
          have hopen := h
          rw [run_definition hkind hname] at hopen
          obtain ⟨us, ns, close, rest, rfl, hitems, hclose, hrest⟩ :=
            ih.body (by simp) (by simp at hshort; omega) hopen
          have hsplit : t :: name :: (us ++ close :: rest)
              = (t :: name :: (us ++ [close])) ++ rest := by simp
          rw [hsplit] at h ⊢
          exact ih.first (.definition hkind hname hitems hclose) hrest h
      | ifKeyword =>
          have hopen : (p.enter (.thenBranch []) t.offset).run ts = .ok result := by
            rwa [run_step (by simp [hkind]) (by simp [hkind]) (by simp [hkind]), step, hkind] at h
          obtain ⟨us, n, rest, hsplit, hitem, hrest⟩ := ih.branches hkind hshort hopen
          rw [hsplit] at h ⊢
          exact ih.first hitem hrest h
      | forKeyword =>
          have hopen : (p.enter (.loop []) t.offset).run ts = .ok result := by
            rwa [run_step (by simp [hkind]) (by simp [hkind]) (by simp [hkind]), step, hkind] at h
          obtain ⟨us, ns, close, rest, rfl, hitems, hclose, hrest⟩ :=
            ih.body (by simp) hshort hopen
          have hsplit : t :: (us ++ close :: rest) = (t :: (us ++ [close])) ++ rest := by simp
          rw [hsplit] at h ⊢
          exact ih.first (.loop hkind hitems hclose) hrest h
      | leftBracket => exact ih.literal .list hkind hshort h
      | leftBrace => exact ih.literal .vector hkind hshort h

end SplitsUpTo

/-- **A run that ends well reads items up to a token no item starts with.** -/
theorem run_split (h : p.run ts = .ok result) : Splits p ts result := by
  have hall : ∀ size, SplitsUpTo size result := by
    intro size
    induction size with
    | zero =>
        intro ts p hsize h
        obtain rfl : ts = [] := List.eq_nil_of_length_eq_zero (Nat.le_zero.mp hsize)
        exact .stop (by simp [Stops]) h
    | succ size ih => exact ih.succ
  exact hall ts.length ts p (Nat.le_refl _) h

/-- A token that is taken in by a step does not ask for a name. -/
theorem not_naming_of_step {q : Parser} (h : p.step t = .ok q) :
    ¬ (t.kind = .varKeyword ∨ t.kind = .colon) := by
  intro ht
  obtain ⟨e, he⟩ := step_unnamed (p := p) ht
  exact absurd (he.symm.trans h) (by simp)

/-- Where neither case of the parser that takes a name along applies, there is none. -/
theorem unnamed_of_cases
    (hvar : ∀ name offset rest, t.kind = .varKeyword → ts = ⟨.word, name, offset⟩ :: rest → False)
    (hcolon : ∀ name offset rest, t.kind = .colon → ts = ⟨.word, name, offset⟩ :: rest → False)
    (ht : t.kind = .varKeyword ∨ t.kind = .colon) : ∀ name ∈ ts.head?, name.kind ≠ .word := by
  intro name hname hword
  cases ts with
  | nil => simp at hname
  | cons first ts =>
      obtain rfl : first = name := by simpa using hname
      obtain ⟨kind, lexeme, offset⟩ := first
      obtain rfl : kind = .word := hword
      rcases ht with ht | ht
      · exact hvar lexeme offset ts ht rfl
      · exact hcolon lexeme offset ts ht rfl

/-- What follows the end token is never looked at. -/
theorem run_append_end {e : Token} (he : e.kind = .eof) (after : List Token) :
    ∀ (ts : List Token) (p : Parser), p.run (ts ++ e :: after) = p.run ts := by
  intro ts p
  fun_induction run p ts with
  | case1 p => exact run_end he
  | case2 p t ts ht => exact run_end ht
  | case3 p t name offset ts ht ih =>
      rw [← ih]
      exact run_declaration ht rfl
  | case4 p t name offset ts ht ih =>
      rw [← ih]
      exact run_definition ht rfl
  | case5 p t ts q hstep hend _ _ ih =>
      have hplain := not_naming_of_step hstep
      rw [← ih, List.cons_append, run_unnamed hend fun ht => absurd ht hplain, hstep]
      rfl
  | case6 p t ts err hstep hend hvar hcolon =>
      rw [List.cons_append, run_unnamed hend ?_, hstep]
      · rfl
      · -- A name in front of the end token would have been a name without it.
        intro ht name hname
        cases ts with
        | nil =>
            obtain rfl : e = name := by simpa using hname
            simp [he]
        | cons first ts => exact unnamed_of_cases hvar hcolon ht name hname

end Parser

/-- A derivation determines what the parser answers. -/
theorem parseTokens_of_items {ts : List Token} {ns : List Node} (h : Items ts ns) :
    parseTokens ts = .ok (Node.surfaced ns) := by
  have hrun := Parser.run_items h .start []
  rw [List.append_nil] at hrun
  rw [parseTokens, hrun, Parser.start, Parser.feed_top, Parser.run, Parser.finish]
  simp

/-- What the parser answers comes from a derivation. -/
theorem items_of_parseTokens {ts : List Token} {forest : List Node}
    (hend : ∀ t ∈ ts, t.kind ≠ .eof) (h : parseTokens ts = .ok forest) :
    ∃ ns, Items ts ns ∧ forest = Node.surfaced ns := by
  obtain ⟨us, ns, rest, rfl, hitems, hstop, hrun⟩ := Parser.run_split h
  rw [Parser.start, Parser.feed_top] at hrun
  obtain ⟨hforest, hrest⟩ := Parser.of_run_top hstop hrun
  have hnone : rest = [] := by
    cases rest with
    | nil => rfl
    | cons t rest => exact absurd (hrest t rfl) (hend t (by simp))
  subst hnone
  exact ⟨ns, by simpa using hitems, by simpa using hforest⟩

/--
**The parser accepts exactly the grammar and builds exactly its trees.**

Tokens without an end token are accepted if and only if they are a run of items.
The derivation is unique, and the answer is its top-level nodes in order, each
behind the definitions strictly inside it in the order in which those close.  An
end token cuts off whatever follows it.
-/
theorem parseTokens_iff_items (ts : List Token) (hend : ∀ t ∈ ts, t.kind ≠ .eof) :
    (∀ forest, parseTokens ts = .ok forest ↔ ∃ ns, Items ts ns ∧ forest = Node.surfaced ns) ∧
    (∀ ns ms, Items ts ns → Items ts ms → ns = ms) ∧
    (∀ (e : Token) (after : List Token), e.kind = .eof →
      parseTokens (ts ++ e :: after) = parseTokens ts) := by
  refine ⟨fun forest => ⟨items_of_parseTokens hend, ?_⟩, ?_, ?_⟩
  · rintro ⟨ns, hitems, rfl⟩
    exact parseTokens_of_items hitems
  · intro ns ms hns hms
    have hsame := (parseTokens_of_items hns).symm.trans (parseTokens_of_items hms)
    exact Node.surfaced_injective (Except.ok.inj hsame)
  · intro e after he
    exact Parser.run_append_end he after ts .start

/-- A definition in the second branch of a conditional inside another definition. -/
theorem parseTokens_iff_items_nested :
    let ts : List Token := [⟨.colon, ":", 0⟩, ⟨.word, "a", 2⟩, ⟨.ifKeyword, "if", 4⟩,
      ⟨.elseKeyword, "else", 7⟩, ⟨.colon, ":", 12⟩, ⟨.word, "b", 14⟩, ⟨.semicolon, ";", 16⟩,
      ⟨.thenKeyword, "then", 18⟩, ⟨.semicolon, ";", 23⟩]
    let inner := Node.definition "b" []
    let outer := Node.definition "a" [.conditional [] [inner]]
    (∀ t ∈ ts, t.kind ≠ .eof) ∧ Items ts [outer] ∧ parseTokens ts = .ok [inner, outer] ∧
      parseTokens (ts ++ [⟨.eof, "", 24⟩, ⟨.endKeyword, "end", 24⟩]) = .ok [inner, outer] := by
  intro ts inner outer
  have hend : ∀ t ∈ ts, t.kind ≠ .eof := by decide
  obtain ⟨hiff, -, hcut⟩ := parseTokens_iff_items ts hend
  have hparse : parseTokens ts = .ok [inner, outer] := rfl
  obtain ⟨ns, hitems, hforest⟩ := (hiff _).mp hparse
  obtain rfl : [outer] = ns := Node.surfaced_injective hforest
  exact ⟨hend, hitems, hparse, (hcut _ _ rfl).trans hparse⟩

end DualStack
