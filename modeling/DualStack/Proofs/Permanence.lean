/-
Definitions are visible, and nothing that was defined or stored is ever lost.

A definition may stand anywhere in a source: in a branch that is not taken, in a
loop without iterations, in a collection literal, in another definition.  Wherever
it stands, the parser puts it into the forest as it closes, so it is evaluated like
any other node.  Two facts about the forest are all that is needed of the parser.
Every `:` of the source has its definition in it (`Items.announced`, by induction on
the derivation), and every node follows right behind the definitions inside it
(`surfaced_follow`).  So a forest that is evaluated to its end has defined all names
of its source, and a node that is about to be evaluated finds those inside it defined.

That names stay defined is a matter of single steps.  No step removes an entry from
a dictionary, dealing with an abort touches neither dictionary, and so a machine
retains words and variables from any point of its use to any later one.
-/
import DualStack.Proofs.Answers
import DualStack.Proofs.Render
import DualStack.Proofs.Room
import DualStack.Proofs.Uses
import Mathlib.Data.List.Chain

namespace DualStack

/-! ### Definitions in the forest -/

namespace Node

/-- Right in front of each node of the list stand the nodes `inner` gives for it. -/
def Follow (inner : Node → List Node) (ns : List Node) : Prop :=
  ∀ front n back, ns = front ++ n :: back → inner n <:+ front

section Follow

variable {inner : Node → List Node} {ns ms : List Node} {n : Node}

theorem follow_nil : Follow inner [] := by
  intro front n back h
  simp at h

theorem Follow.append (hns : Follow inner ns) (hms : Follow inner ms) :
    Follow inner (ns ++ ms) := by
  intro front n back h
  rcases List.append_eq_append_iff.mp h with ⟨front', rfl, hms'⟩ | ⟨tail, hns', htail⟩
  · exact (hms front' n back hms').trans (List.suffix_append ns front')
  · cases tail with
    | nil =>
        rw [List.append_nil] at hns'
        rw [← hns', ← List.append_nil ns]
        exact (hms [] n back htail.symm).trans (List.suffix_append ns [])
    | cons d tail =>
        obtain ⟨rfl, -⟩ := List.cons.inj htail
        exact hns front n tail hns'

theorem Follow.concat (hns : Follow inner ns) (hn : inner n <:+ ns) :
    Follow inner (ns ++ [n]) := by
  intro front d back h
  rcases List.append_eq_append_iff.mp h with ⟨front', rfl, hlast⟩ | ⟨tail, hns', htail⟩
  · cases front' with
    | nil =>
        obtain ⟨rfl, -⟩ := List.cons.inj hlast
        rwa [List.append_nil]
    | cons e front' => simp at hlast
  · cases tail with
    | nil =>
        obtain ⟨rfl, -⟩ := List.cons.inj htail
        rw [List.append_nil] at hns'
        rwa [← hns']
    | cons e tail =>
        obtain ⟨rfl, -⟩ := List.cons.inj htail
        exact hns front d tail hns'

/-- The definitions among nodes that follow what is inside them follow those inside them. -/
theorem Follow.filter (h : Follow inside ns) : Follow nested (ns.filter isDefinition) := by
  intro front n back hsplit
  obtain ⟨ns₁, ns₂, rfl, rfl, hrest⟩ := List.filter_eq_append_iff.mp hsplit
  obtain ⟨skipped, after, rfl, hskipped, -, -⟩ := List.filter_eq_cons_iff.mp hrest
  have hinside := h (ns₁ ++ skipped) n after (by rw [List.append_assoc])
  have hnone : skipped.filter isDefinition = [] := List.filter_eq_nil_iff.mpr hskipped
  have hnested := hinside.filter isDefinition
  rwa [List.filter_append, hnone, List.append_nil] at hnested

end Follow

mutual

/-- Inside a node, each node closes right behind those inside it. -/
theorem inside_follow : ∀ n : Node, Follow inside n.inside
  | .definition _ body => closing_follow body
  | .conditional thenBody elseBody => (closing_follow thenBody).append (closing_follow elseBody)
  | .loop body => closing_follow body
  | .collection _ body => closing_follow body
  | .word _ => follow_nil
  | .reference _ => follow_nil
  | .number _ => follow_nil
  | .text _ => follow_nil
  | .declaration _ => follow_nil

theorem closing_follow : ∀ ns : List Node, Follow inside (closing ns)
  | [] => follow_nil
  | n :: ns => by
      rw [closing_cons]
      exact ((inside_follow n).concat (List.suffix_refl _)).append (closing_follow ns)

end

/-- **In a forest each node follows right behind the definitions inside it.** -/
theorem surfaced_follow (ns : List Node) : Follow nested (surfaced ns) := by
  induction ns with
  | nil => exact follow_nil
  | cons n ns ih =>
      have hsplit : surfaced (n :: ns) = (n.nested ++ [n]) ++ surfaced ns := by simp [surfaced]
      rw [hsplit]
      exact ((inside_follow n).filter.concat (List.suffix_refl _)).append ih

theorem of_isDefinition {d : Node} (h : d.isDefinition = true) :
    ∃ name body, d = definition name body := by
  cases d with
  | definition name body => exact ⟨name, body, rfl⟩
  | _ => simp [isDefinition] at h

/-- A definition anywhere in some nodes is a node of their forest. -/
theorem mem_surfaced {d : Node} {ns : List Node} (hd : d.isDefinition = true)
    (h : d ∈ closing ns) : d ∈ surfaced ns := by
  obtain ⟨n, hn, hmem⟩ := mem_closing.mp h
  refine List.mem_flatMap.mpr ⟨n, hn, ?_⟩
  rcases List.mem_append.mp hmem with hinside | hself
  · exact List.mem_append_left _ (List.mem_filter.mpr ⟨hinside, hd⟩)
  · exact List.mem_append_right _ hself

end Node

/-! ### The names a source defines -/

/-- The token behind each `:` is a name that one of the nodes defines, and no `:` comes last. -/
structure Announced (defs : List Node) (ts : List Token) : Prop where
  chain : ts.IsChain fun t name =>
    t.kind = .colon → ∃ body, Node.definition name.lexeme body ∈ defs
  last : ∀ t ∈ ts.getLast?, t.kind ≠ .colon

namespace Announced

variable {defs : List Node} {ts us : List Token} {t name : Token}

theorem nil : Announced defs [] :=
  ⟨.nil, by simp⟩

theorem single (ht : t.kind ≠ .colon) : Announced defs [t] :=
  ⟨.singleton t, by simpa using ht⟩

theorem definition {body : List Node} (hname : name.kind = .word)
    (hdef : Node.definition name.lexeme body ∈ defs) : Announced defs [t, name] := by
  refine ⟨List.isChain_pair.mpr fun _ => ⟨body, hdef⟩, ?_⟩
  simp [hname]

theorem append (hts : Announced defs ts) (hus : Announced defs us) :
    Announced defs (ts ++ us) := by
  refine ⟨hts.chain.append hus.chain ?_, ?_⟩
  · intro t ht name _ hcolon
    exact absurd hcolon (hts.last t ht)
  · intro t ht
    cases us with
    | nil =>
        rw [List.append_nil] at ht
        exact hts.last t ht
    | cons u us =>
        rw [List.getLast?_append_cons] at ht
        exact hus.last t ht

/-- A scope: what opens it, what is in it, and what closes it. -/
theorem scope {k : Construct} {close : Token} (ht : t.kind ≠ .colon) (hts : Announced defs ts)
    (hclose : close.kind = k.closer) : Announced defs (t :: (ts ++ [close])) :=
  (single ht).append (hts.append (single (Parser.closer_ne hclose).2.2))

end Announced

mutual

/-- The `:` of an item announce definitions that its node is made of. -/
theorem Item.announced {defs : List Node} : ∀ {ts : List Token} {n : Node}, Item ts n →
    (∀ d ∈ n.inside ++ [n], d ∈ defs) → Announced defs ts
  | _, _, .word ht, _ => .single (by simp [ht])
  | _, _, .number ht, _ => .single (by simp [ht])
  | _, _, .text ht, _ => .single (by simp [ht])
  | _, _, .declaration ht hname, _ =>
      (Announced.single (by simp [ht])).append (.single (by simp [hname]))
  | _, _, .definition _ hname hbody hclose, hdefs => by
      have hinside := Items.announced hbody fun d hd => hdefs d (List.mem_append_left _ hd)
      have hclosed := hinside.append (.single (Parser.closer_ne hclose).2.2)
      have hself := hdefs _ (List.mem_append_right _ (List.mem_singleton_self _))
      exact (Announced.definition hname hself).append hclosed
  | _, _, .conditional ht hthen hclose, hdefs => by
      have hinside := Items.announced hthen fun d hd => hdefs d (by simp [Node.inside, hd])
      exact hinside.scope (by simp [ht]) hclose
  | _, _, .alternative ht hthen hmiddle helse hclose, hdefs => by
      have hfirst := Items.announced hthen fun d hd => hdefs d (by simp [Node.inside, hd])
      have hsecond := Items.announced helse fun d hd => hdefs d (by simp [Node.inside, hd])
      exact (Announced.single (by simp [ht])).append
        (hfirst.append (hsecond.scope (by simp [hmiddle]) hclose))
  | _, _, .loop ht hbody hclose, hdefs => by
      have hinside := Items.announced hbody fun d hd => hdefs d (List.mem_append_left _ hd)
      exact hinside.scope (by simp [ht]) hclose
  | _, _, .collection ht hbody hclose, hdefs => by
      have hinside := Items.announced hbody fun d hd => hdefs d (List.mem_append_left _ hd)
      exact hinside.scope (Parser.opener_ne ht).2.2 hclose

/-- The `:` of some items announce definitions that their nodes are made of. -/
theorem Items.announced {defs : List Node} : ∀ {ts : List Token} {ns : List Node}, Items ts ns →
    (∀ d ∈ Node.closing ns, d ∈ defs) → Announced defs ts
  | _, _, .nil, _ => .nil
  | _, _, .cons hitem hitems, hdefs => by
      obtain ⟨hfirst, hrest⟩ := Node.forall_closing_cons.mp hdefs
      exact (Item.announced hitem hfirst).append (Items.announced hitems hrest)

end

/-- **Every name that a source defines is defined by a node of its forest.** -/
theorem mem_forest_of_colon {source : String} {forest : List Node} {t name : Token}
    (hparse : parse source = .ok forest) (hpair : [t, name] <:+: Token.scan source)
    (ht : t.kind = .colon) : ∃ body, Node.definition name.lexeme body ∈ forest := by
  obtain ⟨ns, hitems, rfl⟩ := items_of_parseTokens (fun t ht => (of_mem_scan ht).1) hparse
  have hannounced := hitems.announced fun d hd => hd
  have hchain := hannounced.chain.infix hpair
  obtain ⟨body, hbody⟩ := List.isChain_pair.mp hchain ht
  exact ⟨body, Node.mem_surfaced rfl hbody⟩

/-! ### What a machine retains -/

namespace Machine

variable {m n k : Machine} {name : String}

/-- The name stands for a defined word. -/
def Defines (m : Machine) (name : String) : Prop :=
  ∃ body, m.word? name = some (.defined body)

theorem word?_of_find? {body : List Node} (h : m.words.find? name = some body) :
    m.word? name = some (.defined body) := by
  unfold word?
  rw [h]

theorem word?_define (name other : String) (body : List Node) (m : Machine) :
    (m.define name body).word? other = if name = other then some (.defined body)
      else m.word? other := by
  unfold word? define
  rw [Dictionary.find?_insert]
  by_cases h : name = other
  · rw [if_pos h, if_pos h]
  · rw [if_neg h, if_neg h]

/-- Every defined word of the first machine is one of the second, and every variable that holds
something still does. -/
structure Retains (m n : Machine) : Prop where
  words : ∀ name, m.Defines name → n.Defines name
  slots : ∀ name, m.slots.find? name ≠ none → n.slots.find? name ≠ none

theorem Retains.refl (m : Machine) : Retains m m :=
  ⟨fun _ h => h, fun _ h => h⟩

theorem Retains.trans (h : Retains m n) (h' : Retains n k) : Retains m k :=
  ⟨fun name hm => h'.words name (h.words name hm), fun name hm => h'.slots name (h.slots name hm)⟩

instance : Trans Retains Retains Retains :=
  ⟨Retains.trans⟩

theorem retains_of_eq (hwords : n.words = m.words) (hslots : n.slots = m.slots) :
    Retains m n := by
  refine ⟨?_, ?_⟩
  · intro name ⟨body, hbody⟩
    exact ⟨body, word?_of_find? (hwords ▸ find?_of_word? hbody)⟩
  · intro name hname
    rwa [hslots]

theorem retains_define (name : String) (body : List Node) (m : Machine) :
    Retains m (m.define name body) := by
  refine ⟨?_, fun _ h => h⟩
  intro other hother
  unfold Defines
  rw [word?_define]
  by_cases h : name = other
  · rw [if_pos h]
    exact ⟨body, rfl⟩
  · rw [if_neg h]
    exact hother

theorem retains_store (name : String) (v : Value) (m : Machine) : Retains m (m.store name v) := by
  refine ⟨fun _ h => h, ?_⟩
  intro other hother
  unfold store
  rw [Dictionary.find?_insert]
  by_cases h : name = other
  · rw [if_pos h]
    simp
  · rw [if_neg h]
    exact hother

/-- No step removes a word or a variable. -/
theorem Step.retains {P : Node → Prop} (h : Step P m n) : Retains m n := by
  cases h with
  | move hmove =>
      cases hmove with
      | store name v => exact retains_store name v m
      | data | sink | world => exact retains_of_eq rfl rfl
  | define name body => exact retains_define name body m
  | returns | enter | leave => exact retains_of_eq rfl rfl

theorem Steps.retains {P : Node → Prop} (h : Steps P m n) : Retains m n := by
  induction h with
  | refl => exact .refl m
  | tail _ hstep ih => exact ih.trans hstep.retains

theorem Change.retains (h : Change m n) : Retains m n := by
  cases h with
  | step hstep => exact hstep.retains
  | reset => exact retains_of_eq rfl rfl

/-- A variable gets another value only by being stored to. -/
theorem Change.store (h : Change m n) (hslot : n.slots.find? name ≠ m.slots.find? name) :
    ∃ v, n = m.store name v := by
  cases h with
  | step hstep =>
      cases hstep with
      | move hmove =>
          cases hmove with
          | store other v =>
              by_cases hname : other = name
              · rw [hname]
                exact ⟨v, rfl⟩
              · unfold Machine.store at hslot
                rw [Dictionary.find?_insert, if_neg hname] at hslot
                exact absurd rfl hslot
          | data | sink | world => exact absurd rfl hslot
      | returns | define | enter | leave => exact absurd rfl hslot
  | reset => exact absurd rfl hslot

/-- **However a machine is used, it retains everything from each point to all later ones.** -/
theorem Passes.retains {uses : List Use} {points : List Point} (h : Passes uses m points) :
    (m :: Point.machines points).Pairwise Retains :=
  (h.trail.mono Change.retains).isChain.pairwise

/-! ### Evaluating a forest -/

/-- Evaluating the nodes comes to an end, and takes the first machine to the second. -/
def Executes (nodes : List Node) (m n : Machine) : Prop :=
  ∃ fuel, Eval.block Eval.lenient fuel nodes m = .ok () n

namespace Executes

variable {nodes ns ms : List Node} {body : List Node}

theorem split (h : Executes (ns ++ ms) m n) : ∃ k, Executes ns m k ∧ Executes ms k n := by
  have hanswers : Effect.Answers (Eval.block Eval.lenient · (ns ++ ms)) m (.ok () n) :=
    ⟨isAnswer_ok () n, h⟩
  rcases Eval.block_answers_append.mp hanswers with ⟨k, ⟨-, hns⟩, -, hms⟩ | ⟨_, _, -, hfalse⟩
  · exact ⟨k, hns, hms⟩
  · exact absurd hfalse (by simp)

/-- Evaluating a definition defines its name. -/
theorem of_definition (h : Executes [.definition name body] m n) : n = m.define name body := by
  obtain ⟨fuel, hrun⟩ := h
  match fuel, hrun with
  | fuel + 2, hrun =>
      obtain ⟨_, k, hnode, hnil⟩ := Effect.of_bind_ok hrun
      cases hnode
      cases hnil
      rfl

theorem retains (h : Executes nodes m n) : Retains m n := by
  obtain ⟨fuel, hrun⟩ := h
  have hsteps := Eval.block_steps Eval.lenient_leads fuel nodes m
  rw [Effect.after_ok hrun] at hsteps
  exact hsteps.retains

/-- **A forest that is evaluated to its end has defined every name that it defines.** -/
theorem defines (h : Executes nodes m n) (hd : Node.definition name body ∈ nodes) :
    n.Defines name := by
  obtain ⟨front, back, rfl⟩ := List.append_of_mem hd
  obtain ⟨k, -, hrest⟩ := h.split
  have hrest' : Executes ([.definition name body] ++ back) k n := hrest
  obtain ⟨k', hself, hback⟩ := hrest'.split
  refine hback.retains.words name ⟨body, ?_⟩
  rw [hself.of_definition, word?_define, if_pos rfl]

/-- After some definitions a name of theirs stands for a body of theirs. -/
theorem word_of_definitions {ds : List Node} (hds : ∀ d ∈ ds, d.isDefinition = true)
    (h : Executes ds m n) (hd : Node.definition name body ∈ ds) :
    ∃ body', Node.definition name body' ∈ ds ∧ n.word? name = some (.defined body') := by
  -- The last definition of the name counts, so the induction is from the end.
  induction ds using List.reverseRecOn generalizing n with
  | nil => simp at hd
  | append_singleton ds d ih =>
      obtain ⟨k, hfront, hlast⟩ := h.split
      obtain ⟨last, lastBody, rfl⟩ := Node.of_isDefinition (hds d (by simp))
      rw [hlast.of_definition, word?_define]
      by_cases hname : last = name
      · rw [if_pos hname, ← hname]
        exact ⟨lastBody, by simp, rfl⟩
      · rw [if_neg hname]
        have hmem : Node.definition name body ∈ ds := by
          rcases List.mem_append.mp hd with hmem | hmem
          · exact hmem
          · cases List.mem_singleton.mp hmem
            exact absurd rfl hname
        obtain ⟨body', hbody', hword⟩ := ih (fun d h => hds d (by simp [h])) hfront hmem
        exact ⟨body', List.mem_append_left _ hbody', hword⟩

/-- **A node of a forest that is about to be evaluated finds the definitions inside it
defined.** -/
theorem word_of_nested {front back : List Node} {d : Node}
    (hforest : Node.Follow Node.nested (front ++ d :: back)) (h : Executes front m n)
    (hd : Node.definition name body ∈ d.nested) :
    ∃ body', Node.definition name body' ∈ d.nested ∧ n.word? name = some (.defined body') := by
  obtain ⟨earlier, rfl⟩ := hforest front d back rfl
  obtain ⟨k, -, hnested⟩ := h.split
  exact word_of_definitions (fun d h => (List.mem_filter.mp h).2) hnested hd

end Executes

/-- A run that succeeds has evaluated the forest of its source. -/
theorem executes_of_run {fuel : Nat} {source : String}
    (h : Session.run fuel source m = .ok () n) :
    ∃ forest, parse source = .ok forest ∧ Executes forest m n := by
  obtain ⟨forest, k, hparse, hblock, hflush⟩ := Session.run_eq_ok_iff.mp h
  rcases flush_cases k with hsame | ⟨fault, hfault⟩
  · cases hsame.symm.trans hflush
    exact ⟨forest, hparse, fuel, hblock⟩
  · exact absurd (hfault.symm.trans hflush) (by simp)

/--
**Definitions are visible and never lost.**

A source that runs to its end has defined every name behind a `:`, wherever in it
that stands.  A node of the forest that is about to be evaluated finds every name
that is defined inside it defined already, by a definition inside it.  And however a
machine is used, with runs that abort among the uses: from each point on the way to
every later one, down to the machine that is left, a defined word stays defined and
a variable that holds something does not become empty; and where a variable changes
from one point to the next, it has been stored to.
-/
theorem definitions_visible_and_never_lost (m : Machine) :
    (∀ fuel source n, Session.run fuel source m = .ok () n →
      ∀ t name, [t, name] <:+: Token.scan source → t.kind = .colon → n.Defines name.lexeme) ∧
    (∀ source front node back, parse source = .ok (front ++ node :: back) →
      ∀ n, Executes front m n → ∀ name body, Node.definition name body ∈ node.nested →
        ∃ body', Node.definition name body' ∈ node.nested ∧
          n.word? name = some (.defined body')) ∧
    (∀ uses, (∃ points, Passes uses m points) ∧ ∀ points, Passes uses m points →
      (∃ front, m :: Point.machines points = front ++ [uses.foldl Use.after m]) ∧
      (m :: Point.machines points).Pairwise Retains ∧
      (m :: Point.machines points).IsChain fun k k' => ∀ name,
        k'.slots.find? name ≠ k.slots.find? name → ∃ v, k' = k.store name v) := by
  refine ⟨?_, ?_, ?_⟩
  · intro fuel source n hrun t name hpair ht
    obtain ⟨forest, hparse, hexecutes⟩ := executes_of_run hrun
    obtain ⟨body, hbody⟩ := mem_forest_of_colon hparse hpair ht
    exact hexecutes.defines hbody
  · intro source front node back hparse n hexecutes name body hnested
    obtain ⟨ns, -, hforest⟩ := items_of_parseTokens (fun t ht => (of_mem_scan ht).1) hparse
    have hfollow := Node.surfaced_follow ns
    rw [← hforest] at hfollow
    exact hexecutes.word_of_nested hfollow hnested
  · intro uses
    refine ⟨exists_passes uses m, ?_⟩
    intro points hpasses
    refine ⟨hpasses.trail.ends, hpasses.retains, hpasses.trail.isChain.imp ?_⟩
    intro k k' hchange name hslot
    exact hchange.store hslot

/-- Definitions in a collection inside another definition, in a branch that is not taken and in a
loop that does nothing; and a later run that stores to a variable and then aborts. -/
theorem definitions_visible_and_never_lost_nested :
    let source := ": a [ : b ; ] ; 0 if : c ; then 1 1 for : d ; end var x 5 !"
    let front : List Node := [.definition "b" [],
      .definition "a" [.collection .list [.definition "b" []]], .number 0, .definition "c" []]
    let node : Node := .conditional [.definition "c" []] []
    let back : List Node := [.number 1, .number 1, .definition "d" [],
      .loop [.definition "d" []], .declaration "x", .number 5, .word "!"]
    let m := fresh 8 {} .empty
    let n := (Use.run 40 source).after m
    let last := (Use.run 40 "x 6 ! drop").after n
    (Session.run 40 source m = .ok () n ∧ n.Defines "b" ∧ n.Defines "d") ∧
    (parse source = .ok (front ++ node :: back) ∧
      ∃ k, Executes front m k ∧ k.word? "c" = some (.defined [])) ∧
    ((∃ failure, Session.run 40 "x 6 ! drop" n = .error failure last) ∧ last.Defines "d") := by
  intro source front node back m n last
  have hscan : Token.scan source = [⟨.colon, ":", 0⟩, ⟨.word, "a", 2⟩, ⟨.leftBracket, "[", 4⟩,
      ⟨.colon, ":", 6⟩, ⟨.word, "b", 8⟩, ⟨.semicolon, ";", 10⟩, ⟨.rightBracket, "]", 12⟩,
      ⟨.semicolon, ";", 14⟩, ⟨.number 0, "0", 16⟩, ⟨.ifKeyword, "if", 18⟩, ⟨.colon, ":", 21⟩,
      ⟨.word, "c", 23⟩, ⟨.semicolon, ";", 25⟩, ⟨.thenKeyword, "then", 27⟩, ⟨.number 1, "1", 32⟩,
      ⟨.number 1, "1", 34⟩, ⟨.forKeyword, "for", 36⟩, ⟨.colon, ":", 40⟩, ⟨.word, "d", 42⟩,
      ⟨.semicolon, ";", 44⟩, ⟨.endKeyword, "end", 46⟩, ⟨.varKeyword, "var", 50⟩,
      ⟨.word, "x", 54⟩, ⟨.number 5, "5", 56⟩, ⟨.word, "!", 58⟩] := by
    decide +kernel
  have hparse : parse source = .ok (front ++ node :: back) := by
    rw [parse, hscan]
    rfl
  have hrun : Session.run 40 source m = .ok () n := by
    have hdone : (Session.machines? 40 [source] m).isSome = true := by decide +kernel
    simp only [n, Use.after]
    cases hm : Session.run 40 source m with
    | ok _ k => rfl
    | error failure k => simp [Session.machines?, hm] at hdone
  have habort : ∃ failure, Session.run 40 "x 6 ! drop" n = .error failure last := by
    have hfailed : (Session.machines? 40 ["x 6 ! drop"] n).isSome = false := by decide +kernel
    simp only [last, Use.after]
    cases hn : Session.run 40 "x 6 ! drop" n with
    | ok _ k => simp [Session.machines?, hn] at hfailed
    | error failure k => exact ⟨failure, rfl⟩
  have hfront : Executes front m ((Eval.block Eval.lenient 40 front).after m) :=
    ⟨40, Effect.eq_ok_of_succeeds (by decide +kernel)⟩
  obtain ⟨hdefines, hnested, -⟩ := definitions_visible_and_never_lost m
  have hb : n.Defines "b" := hdefines 40 source n hrun ⟨.colon, ":", 6⟩ ⟨.word, "b", 8⟩
    (by rw [hscan]; decide) rfl
  have hd : n.Defines "d" := hdefines 40 source n hrun ⟨.colon, ":", 40⟩ ⟨.word, "d", 42⟩
    (by rw [hscan]; decide) rfl
  obtain ⟨body, hbody, hword⟩ := hnested source front node back hparse _ hfront "c" []
    (List.mem_singleton_self _)
  cases List.mem_singleton.mp hbody
  obtain ⟨-, -, hkept⟩ := definitions_visible_and_never_lost n
  obtain ⟨⟨points, hpoints⟩, hall⟩ := hkept [.run 40 "x 6 ! drop"]
  obtain ⟨⟨earlier, hends⟩, hretains, -⟩ := hall points hpoints
  refine ⟨⟨hrun, hb, hd⟩, ⟨hparse, _, hfront, hword⟩, habort, ?_⟩
  cases earlier with
  | nil =>
      have hsame : n = last := (List.cons.inj hends).1
      rw [← hsame]
      exact hd
  | cons first earlier =>
      obtain ⟨-, hrest⟩ := List.cons.inj hends
      rw [hrest] at hretains
      exact (List.rel_of_pairwise_cons hretains (by simp [last])).words "d" hd

end Machine

end DualStack
