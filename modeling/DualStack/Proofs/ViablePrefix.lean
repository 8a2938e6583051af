/-
Where an error of structure is reported.

Tokens are viable if some tokens behind them make them a program.  The parser stops
at the first token that makes what it has read hopeless: everything in front of that
token is viable, and with the token it is not.  Two errors are reported elsewhere.
A missing name is reported at the token that needs one, which is viable itself; and
where the tokens end too early nothing is wrong with any of them, so the error names
the innermost scope that is still open.

What the parser holds on to while it reads is a list of open scopes.  `Context` ties
that list to the grammar: the tokens read so far are items, then a token that opens a
scope, then what may stand inside that scope, and so on inwards.  Every step of the
parser keeps it (`Context.step`), and so does every run (`Takes.context`).  Closing
the scopes from the innermost outwards completes a program, so whatever the parser
has taken in is viable; and what it refuses it refuses whatever follows.

Which scope is the innermost open one is told by the grammar alone, `InnermostOpen`:
no item starts at the token that opens it, and one starts at every opening token
behind that.  The first holds because items are well nested: a token that opens a
scope is never made up for by what is inside the scope.
-/
import DualStack.Proofs.Grammar

namespace DualStack

/-- The token that opens a construct. -/
def Construct.opener : Construct → TokenKind
  | definition => .colon
  | conditional => .ifKeyword
  | loop => .forKeyword
  | list => .leftBracket
  | vector => .leftBrace

/-- The token that has to be followed by a name. -/
def Naming.kind : Naming → TokenKind
  | newWord => .colon
  | newVariable => .varKeyword

theorem Naming.kind_cases (naming : Naming) :
    naming.kind = .varKeyword ∨ naming.kind = .colon := by
  cases naming
  · exact Or.inr rfl
  · exact Or.inl rfl

/-- Some tokens behind these make them a program. -/
def Viable (ts : List Token) : Prop :=
  ∃ us ns, Items (ts ++ us) ns

/-- The tokens start with an item. -/
def StartsItem (ts : List Token) : Prop :=
  ∃ us rest n, ts = us ++ rest ∧ Item us n

/-- The token opens the innermost scope that has no closing token: its scope is not closed
behind it, and every scope that is opened behind it is. -/
def InnermostOpen (ts : List Token) (t : Token) (k : Construct) : Prop :=
  ∃ before after, ts = before ++ t :: after ∧ t.kind = k.opener ∧ ¬ StartsItem (t :: after) ∧
    ∀ front u back, after = front ++ u :: back → (∃ k : Construct, u.kind = k.opener) →
      StartsItem (u :: back)

/-! ### Nesting -/

/-- By how much a token changes the nesting. -/
def TokenKind.level : TokenKind → Int
  | .colon | .ifKeyword | .forKeyword | .leftBracket | .leftBrace => 1
  | .semicolon | .thenKeyword | .endKeyword | .rightBracket | .rightBrace => -1
  | _ => 0

theorem Construct.level_opener (k : Construct) : k.opener.level = 1 := by
  cases k <;> rfl

theorem Construct.level_closer (k : Construct) : k.closer.level = -1 := by
  cases k <;> rfl

theorem Shape.opener_eq (shape : Shape) : shape.opener = shape.construct.opener := by
  cases shape <;> rfl

/-- How many more scopes the tokens open than they close. -/
def nesting : List Token → Int
  | [] => 0
  | t :: ts => t.kind.level + nesting ts

theorem nesting_cons (t : Token) (ts : List Token) :
    nesting (t :: ts) = t.kind.level + nesting ts := rfl

theorem nesting_append (ts us : List Token) : nesting (ts ++ us) = nesting ts + nesting us := by
  induction ts with
  | nil => rw [List.nil_append, nesting, Int.zero_add]
  | cons t ts ih => rw [List.cons_append, nesting_cons, nesting_cons, ih, Int.add_assoc]

theorem StartsItem.append {ts : List Token} (h : StartsItem ts) (us : List Token) :
    StartsItem (ts ++ us) := by
  obtain ⟨vs, rest, n, rfl, hitem⟩ := h
  exact ⟨vs, rest ++ us, n, List.append_assoc .., hitem⟩

/-- Every scope that is opened among the tokens is closed there. -/
def Settled (ts : List Token) : Prop :=
  ∀ front t back, ts = front ++ t :: back → (∃ k : Construct, t.kind = k.opener) →
    StartsItem (t :: back)

namespace Settled

variable {t : Token} {ts us : List Token}

theorem nil : Settled [] := by
  intro front t back h
  exact absurd h (by simp)

theorem append (hts : Settled ts) (hus : Settled us) : Settled (ts ++ us) := by
  intro front u back h hopen
  rcases List.append_eq_append_iff.mp h with ⟨ws, rfl, hsplit⟩ | ⟨ws, hfront, hback⟩
  · exact hus ws u back hsplit hopen
  · cases ws with
    | nil => exact hus [] u back hback.symm hopen
    | cons w ws =>
        obtain ⟨rfl, rfl⟩ := List.cons.inj hback
        exact (hts front u ws hfront hopen).append us

theorem cons (ht : (∃ k : Construct, t.kind = k.opener) → StartsItem (t :: ts))
    (hts : Settled ts) : Settled (t :: ts) := by
  intro front u back h hopen
  cases front with
  | nil =>
      obtain ⟨rfl, rfl⟩ := List.cons.inj h
      exact ht hopen
  | cons v front =>
      obtain ⟨-, hrest⟩ := List.cons.inj h
      exact hts front u back hrest hopen

/-- A token that opens nothing. -/
theorem single (ht : t.kind.level ≠ 1) : Settled [t] := by
  refine cons ?_ nil
  rintro ⟨k, hk⟩
  rw [hk] at ht
  exact absurd k.level_opener ht

end Settled

/-- The tokens close what they open, nothing else, and nothing before it is opened. -/
structure WellNested (ts : List Token) : Prop where
  total : nesting ts = 0
  initial : ∀ us rest, ts = us ++ rest → 0 ≤ nesting us
  settled : Settled ts

namespace WellNested

variable {t : Token} {ts us : List Token}

theorem nil : WellNested [] := by
  refine ⟨rfl, ?_, .nil⟩
  intro us rest h
  obtain ⟨rfl, -⟩ := List.append_eq_nil_iff.mp h.symm
  exact Int.le_refl 0

theorem append (hts : WellNested ts) (hus : WellNested us) : WellNested (ts ++ us) := by
  refine ⟨?_, ?_, hts.settled.append hus.settled⟩
  · rw [nesting_append, hts.total, hus.total]
    rfl
  · intro vs rest h
    rcases List.append_eq_append_iff.mp h with ⟨ws, rfl, hsplit⟩ | ⟨ws, hsplit, -⟩
    · rw [nesting_append, hts.total, Int.zero_add]
      exact hus.initial ws rest hsplit
    · exact hts.initial vs ws hsplit

/-- A token that neither opens nor closes anything. -/
theorem single (ht : t.kind.level = 0) : WellNested [t] := by
  refine ⟨by simp [nesting, ht], ?_, .single (by simp [ht])⟩
  intro us rest h
  rcases List.singleton_eq_append_iff.mp h with ⟨rfl, -⟩ | ⟨rfl, -⟩
  · exact Int.le_refl 0
  · simp [nesting, ht]

/-- An item that opens a scope, holds well-nested tokens and closes the scope. -/
theorem scope {k : Construct} {close : Token} {n : Node} (ht : t.kind = k.opener)
    (hts : WellNested ts) (hclose : close.kind = k.closer)
    (hitem : Item (t :: (ts ++ [close])) n) : WellNested (t :: (ts ++ [close])) := by
  have hopens : t.kind.level = 1 := by rw [ht, k.level_opener]
  have hcloses : close.kind.level = -1 := by rw [hclose, k.level_closer]
  have hlast : nesting [close] = -1 := by simp [nesting, hcloses]
  refine ⟨?_, ?_, ?_⟩
  · rw [nesting_cons, nesting_append, hts.total, hopens, hlast]
    rfl
  · intro us rest h
    cases us with
    | nil => exact Int.le_refl 0
    | cons u us =>
        obtain ⟨rfl, hrest⟩ := List.cons.inj h
        rw [nesting_cons, hopens]
        -- Up to the closing token the scope is open, so one level is in hand for that token.
        rcases List.append_eq_append_iff.mp hrest with ⟨ws, rfl, hsplit⟩ | ⟨ws, hsplit, -⟩
        · rw [nesting_append, hts.total]
          rcases List.singleton_eq_append_iff.mp hsplit with ⟨rfl, -⟩ | ⟨rfl, -⟩
          · decide
          · rw [hlast]
            decide
        · have hinside := hts.initial us ws hsplit
          omega
  · refine .cons (fun _ => ⟨_, [], n, (List.append_nil _).symm, hitem⟩) ?_
    exact hts.settled.append (.single (by simp [hcloses]))

end WellNested

mutual

theorem Item.wellNested : ∀ {ts : List Token} {n : Node}, Item ts n → WellNested ts
  | _, _, .word ht => .single (by rw [ht]; rfl)
  | _, _, .number ht => .single (by rw [ht]; rfl)
  | _, _, .text ht => .single (by rw [ht]; rfl)
  | _, _, .declaration ht hname =>
      (WellNested.single (by rw [ht]; rfl)).append (.single (by rw [hname]; rfl))
  | _, _, .definition ht hname hbody hclose => by
      have hinside := (WellNested.single (by rw [hname]; rfl)).append (Items.wellNested hbody)
      exact hinside.scope (k := .definition) ht hclose (.definition ht hname hbody hclose)
  | _, _, .conditional ht hthen hclose =>
      (Items.wellNested hthen).scope (k := .conditional) ht hclose (.conditional ht hthen hclose)
  | _, _, @Item.alternative t middle close ts us _ _ ht hthen hmiddle helse hclose => by
      have hsecond := (WellNested.single (by rw [hmiddle]; rfl)).append (Items.wellNested helse)
      have hshape : t :: (ts ++ middle :: (us ++ [close])) =
          t :: ((ts ++ ([middle] ++ us)) ++ [close]) := by simp
      have hitem := Item.alternative ht hthen hmiddle helse hclose
      rw [hshape] at hitem ⊢
      exact ((Items.wellNested hthen).append hsecond).scope (k := .conditional) ht hclose hitem
  | _, _, .loop ht hbody hclose =>
      (Items.wellNested hbody).scope (k := .loop) ht hclose (.loop ht hbody hclose)
  | _, _, @Item.collection shape _ _ _ _ ht hbody hclose =>
      (Items.wellNested hbody).scope (ht.trans shape.opener_eq) hclose
        (.collection ht hbody hclose)

theorem Items.wellNested : ∀ {ts : List Token} {ns : List Node}, Items ts ns → WellNested ts
  | _, _, .nil => .nil
  | _, _, .cons hitem hitems => (Item.wellNested hitem).append (Items.wellNested hitems)

end

/-! ### The tokens of the open scopes -/

/-- What may stand behind the token that opens a scope while the scope is open. -/
inductive Inside : Scope → Token → List Token → Prop
  | definition {t name : Token} {ts : List Token} {ns body : List Node} {word : String}
      (ht : t.kind = .colon) (hname : name.kind = .word) (hbody : Items ts ns) :
      Inside (.definition word body) t (name :: ts)
  | thenBranch {t : Token} {ts : List Token} {ns body : List Node} (ht : t.kind = .ifKeyword)
      (hthen : Items ts ns) : Inside (.thenBranch body) t ts
  | elseBranch {t middle : Token} {ts us : List Token} {ns ms thenBody body : List Node}
      (ht : t.kind = .ifKeyword) (hthen : Items ts ns) (hmiddle : middle.kind = .elseKeyword)
      (helse : Items us ms) : Inside (.elseBranch thenBody body) t (ts ++ middle :: us)
  | loop {t : Token} {ts : List Token} {ns body : List Node} (ht : t.kind = .forKeyword)
      (hbody : Items ts ns) : Inside (.loop body) t ts
  | collection {t : Token} {shape : Shape} {ts : List Token} {ns body : List Node}
      (ht : t.kind = shape.opener) (hbody : Items ts ns) : Inside (.collection shape body) t ts

namespace Inside

variable {s : Scope} {t last : Token} {ts us : List Token} {n : Node}

theorem opener (h : Inside s t ts) : t.kind = s.construct.opener := by
  cases h with
  | definition ht | thenBranch ht | elseBranch ht | loop ht => exact ht
  | @collection _ shape _ _ _ ht => cases shape <;> exact ht

theorem wellNested (h : Inside s t ts) : WellNested ts := by
  cases h with
  | definition _ hname hbody =>
      exact (WellNested.single (by rw [hname]; rfl)).append hbody.wellNested
  | thenBranch _ hbody | loop _ hbody | collection _ hbody => exact hbody.wellNested
  | elseBranch _ hthen hmiddle helse =>
      have hsecond := (WellNested.single (by rw [hmiddle]; rfl)).append helse.wellNested
      exact hthen.wellNested.append hsecond

/-- One more item. -/
theorem item (h : Inside s t ts) (hitem : Item us n) : Inside s t (ts ++ us) := by
  have hitems := Items.single hitem
  cases h with
  | definition ht hname hbody => exact .definition ht hname (hbody.append hitems)
  | thenBranch ht hthen => exact .thenBranch ht (hthen.append hitems)
  | elseBranch ht hthen hmiddle helse =>
      rw [List.append_assoc]
      exact .elseBranch ht hthen hmiddle (helse.append hitems)
  | loop ht hbody => exact .loop ht (hbody.append hitems)
  | collection ht hbody => exact .collection ht (hbody.append hitems)

/-- The nodes a scope has been given do not matter. -/
theorem append (h : Inside s t ts) (given : Node) : Inside (s.append given) t ts := by
  cases h with
  | definition ht hname hbody => exact .definition ht hname hbody
  | thenBranch ht hthen => exact .thenBranch ht hthen
  | elseBranch ht hthen hmiddle helse => exact .elseBranch ht hthen hmiddle helse
  | loop ht hbody => exact .loop ht hbody
  | collection ht hbody => exact .collection ht hbody

/-- The closing token makes the scope an item. -/
theorem close (h : Inside s t ts) (hclose : last.kind = s.construct.closer) :
    ∃ n, Item (t :: (ts ++ [last])) n := by
  cases h with
  | definition ht hname hbody => exact ⟨_, .definition ht hname hbody hclose⟩
  | thenBranch ht hthen => exact ⟨_, .conditional ht hthen hclose⟩
  | elseBranch ht hthen hmiddle helse =>
      rw [List.append_assoc]
      exact ⟨_, .alternative ht hthen hmiddle helse hclose⟩
  | loop ht hbody => exact ⟨_, .loop ht hbody hclose⟩
  | @collection _ shape _ _ _ ht hbody =>
      refine ⟨_, .collection ht hbody ?_⟩
      rw [hclose]
      cases shape <;> rfl

/-- No item starts at the token that opens the scope: inside, nothing closes it. -/
theorem not_startsItem (h : Inside s t ts) : ¬ StartsItem (t :: ts) := by
  rintro ⟨us, rest, n, hsplit, hitem⟩
  have htotal := hitem.wellNested.total
  cases us with
  | nil => exact absurd hitem nofun
  | cons u us =>
      obtain ⟨rfl, hrest⟩ := List.cons.inj hsplit
      have hinside := h.wellNested.initial us rest hrest
      rw [nesting_cons, h.opener, Construct.level_opener] at htotal
      omega

end Inside

/-- The tokens read so far, and the scopes they leave open: items, the token that opens the
outermost of them, what is inside that one, and so on inwards. -/
inductive Context : List Token → List OpenScope → Prop
  | top {ts : List Token} {ns : List Node} (h : Items ts ns) : Context ts []
  | inside {before after : List Token} {t : Token} {s : Scope} {outer : List OpenScope}
      (hbefore : Context before outer) (hinside : Inside s t after) :
      Context (before ++ t :: after) (⟨s, t.offset⟩ :: outer)

namespace Context

variable {ts us : List Token} {t : Token} {p q : Parser} {n : Node}

/-- One more item goes to the innermost open scope. -/
theorem item {scopes : List OpenScope} (h : Context ts scopes) (hitem : Item us n) :
    Context (ts ++ us) scopes := by
  cases h with
  | top hitems => exact .top (hitems.append (.single hitem))
  | inside hbefore hinside =>
      rw [List.append_assoc]
      exact .inside hbefore (hinside.item hitem)

theorem insert (h : Context ts p.scopes) (given : Node) :
    Context ts (p.insert given).scopes := by
  obtain ⟨forest, scopes⟩ := p
  cases h with
  | top hitems => exact .top hitems
  | inside hbefore hinside => exact .inside hbefore (hinside.append given)

theorem close {k : Construct} (h : Context ts p.scopes) (ht : t.kind = k.closer)
    (hclose : p.close t k = .ok q) : Context (ts ++ [t]) q.scopes := by
  obtain ⟨forest, scopes⟩ := p
  cases h with
  | top => exact absurd hclose (by simp [Parser.close])
  | @inside before after opener s outer hbefore hinside =>
      unfold Parser.close at hclose
      dsimp only at hclose
      split at hclose
      · rename_i hmatch
        obtain ⟨m, hitem⟩ := hinside.close (hmatch ▸ ht)
        have hsurface : (Parser.surface s.toNode ⟨forest, outer⟩).scopes = outer := by
          unfold Parser.surface
          split <;> rfl
        cases hclose
        rw [List.append_assoc]
        exact insert (hsurface.symm ▸ hbefore.item hitem) s.toNode
      · exact absurd hclose (by simp)

theorem switch (h : Context ts p.scopes) (ht : t.kind = .elseKeyword)
    (hswitch : p.switch t = .ok q) : Context (ts ++ [t]) q.scopes := by
  obtain ⟨forest, scopes⟩ := p
  cases h with
  | top => exact absurd hswitch (by simp [Parser.switch])
  | inside hbefore hinside =>
      cases hinside with
      | thenBranch hopen hthen =>
          cases hswitch
          rw [List.append_assoc]
          exact .inside hbefore (.elseBranch hopen hthen ht .nil)
      | _ => exact absurd hswitch (by simp [Parser.switch])

theorem enter {s : Scope} (h : Context ts p.scopes) (hinside : Inside s t us) :
    Context (ts ++ t :: us) (p.enter s t.offset).scopes :=
  .inside h hinside

/-- **A step keeps the open scopes in line with the tokens.** -/
theorem step (hend : t.kind ≠ .eof) (h : Context ts p.scopes) (hstep : p.step t = .ok q) :
    Context (ts ++ [t]) q.scopes := by
  unfold Parser.step at hstep
  generalize hkind : t.kind = kind at hend hstep
  cases kind with
  | eof => exact absurd rfl hend
  | varKeyword | colon => exact absurd hstep (by simp)
  | number x =>
      cases hstep
      exact (h.item (.number hkind)).insert _
  | text =>
      cases hstep
      exact (h.item (.text hkind)).insert _
  | word =>
      cases hstep
      exact (h.item (.word hkind)).insert _
  | ifKeyword =>
      cases hstep
      exact h.enter (.thenBranch hkind .nil)
  | forKeyword =>
      cases hstep
      exact h.enter (.loop hkind .nil)
  | leftBracket | leftBrace =>
      cases hstep
      exact h.enter (.collection hkind .nil)
  | elseKeyword => exact h.switch hkind hstep
  | semicolon => exact h.close (k := .definition) hkind hstep
  | thenKeyword => exact h.close (k := .conditional) hkind hstep
  | endKeyword => exact h.close (k := .loop) hkind hstep
  | rightBracket => exact h.close (k := .list) hkind hstep
  | rightBrace => exact h.close (k := .vector) hkind hstep

/-- Closing the open scopes from the innermost outwards completes a program. -/
theorem viable {scopes : List OpenScope} : ∀ {ts : List Token}, Context ts scopes → Viable ts := by
  induction scopes with
  | nil =>
      intro ts h
      cases h with
      | @top _ ns hitems => exact ⟨[], ns, (List.append_nil ts).symm ▸ hitems⟩
  | cons s outer ih =>
      intro ts h
      cases h with
      | @inside before after t s _ hbefore hinside =>
          let last : Token := ⟨s.construct.closer, "", 0⟩
          have hlast : last.kind = s.construct.closer := rfl
          obtain ⟨n, hitem⟩ := hinside.close hlast
          obtain ⟨us, ns, hprogram⟩ := ih (hbefore.item hitem)
          refine ⟨last :: us, ns, ?_⟩
          simpa using hprogram

end Context

/-! ### What the parser has taken in -/

namespace Parser

variable {p q : Parser} {t : Token} {ts us : List Token} {e : ParseError}

/-- The parser takes in the tokens, one at a time or with the name that belongs to one. -/
inductive Takes : Parser → List Token → Parser → Prop
  | nil {p : Parser} : Takes p [] p
  | declaration {p q : Parser} {t name : Token} {ts : List Token} (ht : t.kind = .varKeyword)
      (hname : name.kind = .word) (hrest : Takes (p.insert (.declaration name.lexeme)) ts q) :
      Takes p (t :: name :: ts) q
  | definition {p q : Parser} {t name : Token} {ts : List Token} (ht : t.kind = .colon)
      (hname : name.kind = .word)
      (hrest : Takes (p.enter (.definition name.lexeme []) t.offset) ts q) :
      Takes p (t :: name :: ts) q
  | step {p q r : Parser} {t : Token} {ts : List Token} (hend : t.kind ≠ .eof)
      (hstep : p.step t = .ok r) (hrest : Takes r ts q) : Takes p (t :: ts) q

/-- What follows is parsed from where the parser has come to. -/
theorem Takes.run (h : Takes p ts q) (rest : List Token) : p.run (ts ++ rest) = q.run rest := by
  induction h with
  | nil => rfl
  | declaration ht hname _ ih =>
      rw [← ih]
      exact run_declaration ht hname
  | definition ht hname _ ih =>
      rw [← ih]
      exact run_definition ht hname
  | step hend hstep _ ih =>
      have hplain := not_naming_of_step hstep
      rw [← ih, List.cons_append, run_unnamed hend fun ht => absurd ht hplain, hstep]
      rfl

/-- **Whatever has been taken in, the open scopes are in line with it.** -/
theorem Takes.context (h : Takes p us q) : ∀ {ts : List Token}, Context ts p.scopes →
    Context (ts ++ us) q.scopes := by
  induction h with
  | nil =>
      intro ts hts
      rwa [List.append_nil]
  | declaration ht hname _ ih =>
      intro ts hts
      have hnext := ih ((hts.item (.declaration ht hname)).insert _)
      rwa [List.append_assoc] at hnext
  | definition ht hname _ ih =>
      intro ts hts
      have hnext := ih (hts.enter (.definition ht hname .nil))
      rwa [List.append_assoc] at hnext
  | step hend hstep _ ih =>
      intro ts hts
      have hnext := ih (hts.step hend hstep)
      rwa [List.append_assoc] at hnext

theorem Takes.trans {r : Parser} (h : Takes p us r) (hrest : Takes r ts q) :
    Takes p (us ++ ts) q := by
  induction h with
  | nil => exact hrest
  | declaration ht hname _ ih => exact .declaration ht hname (ih hrest)
  | definition ht hname _ ih => exact .definition ht hname (ih hrest)
  | step hend hstep _ ih => exact .step hend hstep (ih hrest)

/-- The parser takes in some tokens, and then they have ended too early or one is refused.  A
token that needs a name is refused only if none follows. -/
def Fails (p : Parser) (ts : List Token) (e : ParseError) : Prop :=
  (∃ q, Takes p ts q ∧ q.finish = .error e) ∨
  ∃ before t after q, ts = before ++ t :: after ∧ Takes p before q ∧ q.step t = .error e ∧
    (t.kind = .varKeyword ∨ t.kind = .colon → ∀ name ∈ after.head?, name.kind ≠ .word)

theorem Fails.behind {r : Parser} (htakes : Takes p us r) (h : Fails r ts e) :
    Fails p (us ++ ts) e := by
  rcases h with ⟨q, hq, hfinish⟩ | ⟨before, t, after, q, rfl, hq, hstep, hname⟩
  · exact Or.inl ⟨q, htakes.trans hq, hfinish⟩
  · refine Or.inr ⟨us ++ before, t, after, q, ?_, htakes.trans hq, hstep, hname⟩
    rw [List.append_assoc]

/-- **A run that fails does so in one of the two ways.** -/
theorem fails_of_run (hend : ∀ t ∈ ts, t.kind ≠ .eof) (h : p.run ts = .error e) :
    Fails p ts e := by
  fun_induction run p ts with
  | case1 p => exact Or.inl ⟨p, .nil, h⟩
  | case2 p t ts ht => exact absurd ht (hend t (List.mem_cons_self ..))
  | case3 p t name offset ts ht ih =>
      have hrest := ih (fun u hu => hend u (by simp [hu])) h
      exact hrest.behind (.declaration ht rfl .nil)
  | case4 p t name offset ts ht ih =>
      have hrest := ih (fun u hu => hend u (by simp [hu])) h
      exact hrest.behind (.definition ht rfl .nil)
  | case5 p t ts q hstep hkind _ _ ih =>
      have hrest := ih (fun u hu => hend u (List.mem_cons_of_mem _ hu)) h
      exact hrest.behind (.step hkind hstep .nil)
  | case6 p t ts err hstep hkind hvar hcolon =>
      cases h
      exact Or.inr ⟨[], t, ts, p, rfl, .nil, hstep, unnamed_of_cases hvar hcolon⟩

theorem close_error {k : Construct} (h : p.close t k = .error e) :
    e = ⟨t.offset, .unexpectedClose t.lexeme⟩ ∨
      ∃ inside, e = ⟨t.offset, .mismatchedClose t.lexeme inside⟩ := by
  unfold close at h
  split at h
  · cases h
    exact Or.inl rfl
  · rename_i s outer _
    dsimp only at h
    split at h
    · exact absurd h (by simp)
    · cases h
      exact Or.inr ⟨s.scope.construct, rfl⟩

theorem switch_error (h : p.switch t = .error e) : e = ⟨t.offset, .elseOutsideIf⟩ := by
  unfold switch at h
  split at h
  · exact absurd h (by simp)
  · cases h
    rfl

/-- A refused token needs a name, closes something or is an `else`, and the error is at its
offset. -/
theorem step_error (h : p.step t = .error e) :
    (∃ naming : Naming, t.kind = naming.kind ∧ e = ⟨t.offset, .expectedName naming⟩) ∨
    (¬ (t.kind = .varKeyword ∨ t.kind = .colon) ∧
      (e = ⟨t.offset, .unexpectedClose t.lexeme⟩ ∨
        (∃ inside, e = ⟨t.offset, .mismatchedClose t.lexeme inside⟩) ∨
        e = ⟨t.offset, .elseOutsideIf⟩)) := by
  unfold step at h
  generalize hkind : t.kind = kind at h
  cases kind with
  | varKeyword =>
      cases h
      exact Or.inl ⟨.newVariable, rfl, rfl⟩
  | colon =>
      cases h
      exact Or.inl ⟨.newWord, rfl, rfl⟩
  | elseKeyword => exact Or.inr ⟨by simp, Or.inr (Or.inr (switch_error h))⟩
  | semicolon | thenKeyword | endKeyword | rightBracket | rightBrace =>
      exact Or.inr ⟨by simp, or_assoc.mp (Or.inl (close_error h))⟩
  | _ => exact absurd h (by simp)

/-! ### What is and what is not viable -/

/-- Whatever the parser has taken in is viable. -/
theorem Takes.viable (h : Takes start ts q) : Viable ts :=
  (h.context (.top .nil)).viable

/-- What the parser fails on, whatever follows, is not viable. -/
theorem not_viable (h : ∀ us, start.run (ts ++ us) = .error e) : ¬ Viable ts := by
  rintro ⟨us, ns, hitems⟩
  exact absurd ((parseTokens_of_items hitems).symm.trans (h us)) (by simp)

/-- A refused token that needs no name is refused whatever follows. -/
theorem Takes.not_viable_refused (h : Takes start ts q) (hstep : q.step t = .error e)
    (hend : t.kind ≠ .eof) (ht : ¬ (t.kind = .varKeyword ∨ t.kind = .colon)) :
    ¬ Viable (ts ++ [t]) := by
  refine not_viable (e := e) fun us => ?_
  rw [List.append_assoc, h.run, List.singleton_append, run_unnamed hend fun hn => absurd hn ht,
    hstep]
  rfl

/-- A token that needs a name is viable: a name may follow. -/
theorem Takes.viable_naming {naming : Naming} (h : Takes start ts q) (ht : t.kind = naming.kind) :
    Viable (ts ++ [t]) := by
  let name : Token := ⟨.word, "", 0⟩
  have hname : ∃ r, Takes start (ts ++ [t, name]) r := by
    cases naming with
    | newWord => exact ⟨_, h.trans (.definition ht rfl .nil)⟩
    | newVariable => exact ⟨_, h.trans (.declaration ht rfl .nil)⟩
  obtain ⟨r, hr⟩ := hname
  obtain ⟨us, ns, hitems⟩ := hr.viable
  exact ⟨name :: us, ns, by simpa using hitems⟩

/-- With anything but a name behind it, it is not. -/
theorem Takes.not_viable_unnamed {naming : Naming} {next : Token} (h : Takes start ts q)
    (hstep : q.step t = .error e) (ht : t.kind = naming.kind) (hnext : next.kind ≠ .word) :
    ¬ Viable (ts ++ [t, next]) := by
  have hend : t.kind ≠ .eof := by
    rw [ht]
    cases naming <;> decide
  refine not_viable (e := e) fun us => ?_
  have hunnamed : ∀ name ∈ (next :: us).head?, name.kind ≠ .word := by
    simpa using hnext
  rw [List.append_assoc, h.run, List.cons_append, List.singleton_append,
    run_unnamed hend fun _ => hunnamed, hstep]
  rfl

/-- The scope the parser is in is the innermost that the tokens leave open. -/
theorem Takes.innermostOpen {s : OpenScope} {outer : List OpenScope} (h : Takes start ts q)
    (hscopes : q.scopes = s :: outer) :
    ∃ t, s.offset = t.offset ∧ InnermostOpen ts t s.scope.construct := by
  have hcontext : Context ts q.scopes := h.context (.top .nil)
  rw [hscopes] at hcontext
  cases hcontext with
  | @inside before after t s _ hbefore hinside =>
      exact ⟨t, rfl, before, after, rfl, hinside.opener, hinside.not_startsItem,
        hinside.wellNested.settled⟩

end Parser

/--
**An error of structure is reported at the earliest token.**

Where a closing token or an `else` is refused, everything in front of it is viable
and with it nothing is.  A missing name is reported at the `:` or `var` that needs
one: up to that token the tokens are viable, and either they end there or the token
behind makes them hopeless.  Where scopes are left open all of the tokens are viable,
and the error names the innermost of those scopes, at the token that opens it.
-/
theorem parse_error_at_earliest_token {ts : List Token} {e : ParseError}
    (hend : ∀ t ∈ ts, t.kind ≠ .eof) (h : parseTokens ts = .error e) :
    match e.fault with
    | .unexpectedClose _ | .mismatchedClose _ _ | .elseOutsideIf =>
      ∃ before t after, ts = before ++ t :: after ∧ e.offset = t.offset ∧ Viable before ∧
        ¬ Viable (before ++ [t])
    | .expectedName naming =>
      ∃ before t after, ts = before ++ t :: after ∧ e.offset = t.offset ∧ t.kind = naming.kind ∧
        Viable (before ++ [t]) ∧
        (after = [] ∨ ∃ next rest, after = next :: rest ∧ ¬ Viable (before ++ [t, next]))
    | .unclosedScope k => Viable ts ∧ ∃ t, e.offset = t.offset ∧ InnermostOpen ts t k := by
  rcases Parser.fails_of_run hend h with ⟨q, htakes, hfinish⟩ |
    ⟨before, t, after, q, rfl, htakes, hstep, hname⟩
  · unfold Parser.finish at hfinish
    split at hfinish
    · exact absurd hfinish (by simp)
    · rename_i hscopes
      cases hfinish
      exact ⟨htakes.viable, htakes.innermostOpen hscopes⟩
  · have hkind := hend t (by simp)
    rcases Parser.step_error hstep with ⟨naming, ht, rfl⟩ | ⟨hplain, hrefused⟩
    · refine ⟨before, t, after, rfl, rfl, ht, htakes.viable_naming ht, ?_⟩
      cases after with
      | nil => exact Or.inl rfl
      | cons next rest =>
          have hnext := hname (ht ▸ naming.kind_cases) next rfl
          exact Or.inr ⟨next, rest, rfl, htakes.not_viable_unnamed hstep ht hnext⟩
    · have hearliest : Viable before ∧ ¬ Viable (before ++ [t]) :=
        ⟨htakes.viable, htakes.not_viable_refused hstep hkind hplain⟩
      rcases hrefused with rfl | ⟨inside, rfl⟩ | rfl
      all_goals exact ⟨before, t, after, rfl, rfl, hearliest⟩

/-- An `else` in a loop inside a conditional, a number where a variable should be named, and a
definition that ends in the second branch of a conditional. -/
theorem parse_error_at_earliest_token_each :
    let misplaced : List Token := [⟨.ifKeyword, "if", 0⟩, ⟨.forKeyword, "for", 3⟩,
      ⟨.elseKeyword, "else", 7⟩, ⟨.endKeyword, "end", 12⟩, ⟨.thenKeyword, "then", 16⟩]
    let unnamed : List Token := [⟨.leftBracket, "[", 0⟩, ⟨.varKeyword, "var", 2⟩,
      ⟨.number 5.0, "5", 6⟩, ⟨.rightBracket, "]", 8⟩]
    let unclosed : List Token := [⟨.colon, ":", 0⟩, ⟨.word, "f", 2⟩, ⟨.ifKeyword, "if", 4⟩,
      ⟨.leftBrace, "\x7b", 7⟩, ⟨.rightBrace, "\x7d", 9⟩, ⟨.elseKeyword, "else", 11⟩]
    (parseTokens misplaced = .error ⟨7, .elseOutsideIf⟩ ∧
      ∃ before t after, misplaced = before ++ t :: after ∧ 7 = t.offset ∧ Viable before ∧
        ¬ Viable (before ++ [t])) ∧
    (parseTokens unnamed = .error ⟨2, .expectedName .newVariable⟩ ∧
      ∃ before t after, unnamed = before ++ t :: after ∧ 2 = t.offset ∧ t.kind = .varKeyword ∧
        Viable (before ++ [t]) ∧
        (after = [] ∨ ∃ next rest, after = next :: rest ∧ ¬ Viable (before ++ [t, next]))) ∧
    parseTokens unclosed = .error ⟨4, .unclosedScope .conditional⟩ ∧ Viable unclosed ∧
      ∃ t, 4 = t.offset ∧ InnermostOpen unclosed t .conditional := by
  intro misplaced unnamed unclosed
  have hmisplaced : parseTokens misplaced = .error ⟨7, .elseOutsideIf⟩ := rfl
  have hunnamed : parseTokens unnamed = .error ⟨2, .expectedName .newVariable⟩ := rfl
  have hunclosed : parseTokens unclosed = .error ⟨4, .unclosedScope .conditional⟩ := rfl
  exact ⟨⟨hmisplaced, parse_error_at_earliest_token (by decide) hmisplaced⟩,
    ⟨hunnamed, parse_error_at_earliest_token (by decide) hunnamed⟩,
    hunclosed, parse_error_at_earliest_token (by decide) hunclosed⟩

end DualStack
