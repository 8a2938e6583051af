/-
Which nodes are read back from the source they are rendered to.

Rendering writes a node as tokens with single spaces between them.  Every token is
on its own then, so scanning finds the same tokens again, with two exceptions: a
number that is not finite is written as a word, or as a minus sign and a word, and
a text with characters that are spelt out comes back longer than it was.
`Node.reread` is what becomes of a node in any case, and `Node.render_reads` says
that its rendering is a derivation of that.

The names in a node have to be words for this; those of a parsed source are, since
they were scanned as words.  With the parser's answer to a derivation known, a node
is read back if and only if `reread` leaves it as it is, and that is the case if
and only if it is legible: its numbers are finite, and its texts are made of
characters that are shown plainly or by one of the five escapes.
-/
import DualStack.Proofs.Grammar
import DualStack.Proofs.Numerals
import DualStack.Proofs.Quoting
import DualStack.Proofs.Scanning
import Mathlib.Tactic.SplitIfs

namespace DualStack

/-! ### Nodes inside nodes inside nodes -/

namespace Node

theorem mem_closing {d : Node} {ns : List Node} :
    d ∈ closing ns ↔ ∃ n ∈ ns, d ∈ n.inside ++ [n] := by
  induction ns with
  | nil => simp [closing]
  | cons n ns ih =>
      rw [closing_cons, List.mem_append, ih]
      simp only [List.exists_mem_cons_iff]

mutual

/-- What is inside a node that is inside another is inside that one. -/
theorem inside_trans : ∀ (n : Node) {d e : Node}, d ∈ n.inside → e ∈ d.inside → e ∈ n.inside
  | .definition _ body, _, _, hd, he => closing_trans body hd he
  | .conditional thenBody elseBody, _, _, hd, he => by
      rcases List.mem_append.mp hd with hd | hd
      · exact List.mem_append.mpr (Or.inl (closing_trans thenBody hd he))
      · exact List.mem_append.mpr (Or.inr (closing_trans elseBody hd he))
  | .loop body, _, _, hd, he => closing_trans body hd he
  | .collection _ body, _, _, hd, he => closing_trans body hd he

theorem closing_trans : ∀ (ns : List Node) {d e : Node},
    d ∈ closing ns → e ∈ d.inside → e ∈ closing ns
  | n :: ns, d, e, hd, he => by
      rw [closing, List.mem_append, List.mem_cons] at hd ⊢
      rcases hd with hd | rfl | hd
      · exact Or.inl (inside_trans n hd he)
      · exact Or.inl he
      · exact Or.inr (Or.inr (closing_trans ns hd he))

end

/-- A forest holds no other nodes than those its top-level nodes are made of. -/
theorem mem_closing_of_surfaced {n : Node} {ns : List Node} (h : n ∈ closing (surfaced ns)) :
    ∀ d ∈ n.inside ++ [n], d ∈ closing ns := by
  have hclosing : ∀ m ∈ surfaced ns, m ∈ closing ns := by
    intro m hm
    obtain ⟨top, htop, hm⟩ := List.mem_flatMap.mp hm
    refine mem_closing.mpr ⟨top, htop, ?_⟩
    rcases List.mem_append.mp hm with hm | hm
    · exact List.mem_append.mpr (Or.inl (List.mem_of_mem_filter hm))
    · exact List.mem_append.mpr (Or.inr hm)
  obtain ⟨m, hm, hn⟩ := mem_closing.mp h
  have hn' : n ∈ closing ns := by
    rcases List.mem_append.mp hn with hn | hn
    · exact closing_trans ns (hclosing m hm) hn
    · obtain rfl : n = m := by simpa using hn
      exact hclosing n hm
  intro d hd
  rcases List.mem_append.mp hd with hd | hd
  · exact closing_trans ns hn' hd
  · obtain rfl : d = n := by simpa using hd
    exact hn'

/-! ### Names -/

/-- A name that is one word wherever it is written. -/
def IsWord (name : String) : Prop :=
  Spells name.toList .word name.toList

/-- The name of a node, if it has one, is a word that stands for such a node. -/
def Spelt : Node → Prop
  | word name => IsWord name ∧ ofWord name = word name
  | reference name => IsWord ("&" ++ name) ∧ ofWord ("&" ++ name) = reference name
  | declaration name => IsWord name
  | definition name _ => IsWord name
  | _ => True

/-- A word token is a reference or a word. -/
theorem ofWord_cases (lexeme : String) :
    (∃ name, lexeme = "&" ++ name ∧ ofWord lexeme = reference name) ∨
      ofWord lexeme = word lexeme := by
  unfold ofWord
  split
  · rename_i c cs hlexeme
    have hname : (String.ofList (c :: cs)).toList = c :: cs := String.toList_ofList
    refine Or.inl ⟨String.ofList (c :: cs), ?_, rfl⟩
    rw [← String.toList_inj, hlexeme, String.toList_append, hname]
    rfl
  · exact Or.inr rfl

theorem spelt_ofWord {lexeme : String} (h : IsWord lexeme) : (ofWord lexeme).Spelt := by
  rcases ofWord_cases lexeme with ⟨name, rfl, hname⟩ | hname
  · rw [hname]
    exact ⟨h, hname⟩
  · rw [hname]
    exact ⟨h, hname⟩

end Node

/-! ### Nodes of a source

Whatever a node holds besides other nodes is in a token, wherever in the source it stands.
-/

/-- The token that a node has its name or its literal from is one of the tokens. -/
def Node.StandsIn (ts : List Token) : Node → Prop
  | word name => ∃ t ∈ ts, t.kind = .word ∧ ofWord t.lexeme = word name
  | reference name => ∃ t ∈ ts, t.kind = .word ∧ ofWord t.lexeme = reference name
  | number x => ∃ t ∈ ts, t.kind = .number x
  | text s => ∃ t ∈ ts, t.kind = .text ∧ String.ofList (Text.unescape t.lexeme.toList) = s
  | declaration name => ∃ t ∈ ts, t.kind = .word ∧ t.lexeme = name
  | definition name _ => ∃ t ∈ ts, t.kind = .word ∧ t.lexeme = name
  | conditional _ _ | loop _ | collection _ _ => True

theorem Node.standsIn_ofWord {ts : List Token} {t : Token} (ht : t ∈ ts) (hkind : t.kind = .word) :
    (ofWord t.lexeme).StandsIn ts := by
  rcases Node.ofWord_cases t.lexeme with ⟨name, -, hname⟩ | hname
  · rw [hname]
    exact ⟨t, ht, hkind, hname⟩
  · rw [hname]
    exact ⟨t, ht, hkind, hname⟩

mutual

/-- The nodes of an item stand in its tokens. -/
theorem Item.standsIn {us : List Token} : ∀ {ts : List Token} {n : Node}, Item ts n →
    (∀ t ∈ ts, t ∈ us) → n.Every (Node.StandsIn us)
  | _, _, .word ht, hsub =>
      (Node.every_leaf (Parser.ofWord_leaf _).1).mpr (Node.standsIn_ofWord (hsub _ (by simp)) ht)
  | _, _, .number ht, hsub => (Node.every_leaf rfl).mpr ⟨_, hsub _ (by simp), ht⟩
  | _, _, .text ht, hsub => (Node.every_leaf rfl).mpr ⟨_, hsub _ (by simp), ht, rfl⟩
  | _, _, .declaration _ hname, hsub =>
      (Node.every_leaf rfl).mpr ⟨_, hsub _ (by simp), hname, rfl⟩
  | _, _, .definition _ hname hbody _, hsub =>
      Node.every_iff.mpr ⟨Items.standsIn hbody fun t h => hsub t (by simp [h]),
        _, hsub _ (by simp), hname, rfl⟩
  | _, _, .conditional _ hthen _, hsub => by
      refine Node.every_iff.mpr ⟨List.forall_mem_append.mpr ⟨?_, ?_⟩, trivial⟩
      · exact Items.standsIn hthen fun t h => hsub t (by simp [h])
      · simp [Node.closing]
  | _, _, .alternative _ hthen _ helse _, hsub => by
      refine Node.every_iff.mpr ⟨List.forall_mem_append.mpr ⟨?_, ?_⟩, trivial⟩
      · exact Items.standsIn hthen fun t h => hsub t (by simp [h])
      · exact Items.standsIn helse fun t h => hsub t (by simp [h])
  | _, _, .loop _ hbody _, hsub =>
      Node.every_iff.mpr ⟨Items.standsIn hbody fun t h => hsub t (by simp [h]), trivial⟩
  | _, _, .collection _ hbody _, hsub =>
      Node.every_iff.mpr ⟨Items.standsIn hbody fun t h => hsub t (by simp [h]), trivial⟩

/-- The nodes of items stand in their tokens. -/
theorem Items.standsIn {us : List Token} : ∀ {ts : List Token} {ns : List Node}, Items ts ns →
    (∀ t ∈ ts, t ∈ us) → ∀ d ∈ Node.closing ns, d.StandsIn us
  | _, _, .nil, _ => by simp [Node.closing]
  | _, _, .cons hitem hitems, hsub =>
      Node.forall_closing_cons.mpr ⟨Item.standsIn hitem fun t h => hsub t (by simp [h]),
        Items.standsIn hitems fun t h => hsub t (by simp [h])⟩

end

/-- All nodes of a parsed source stand in its tokens. -/
theorem standsIn_of_parse {source : String} {forest : List Node} {n : Node}
    (h : parse source = .ok forest) (hn : n ∈ Node.closing forest) :
    n.Every (Node.StandsIn (Token.scan source)) := by
  obtain ⟨ns, hitems, rfl⟩ := items_of_parseTokens (fun t ht => (of_mem_scan ht).1) h
  have hstands := hitems.standsIn fun _ ht => ht
  exact fun d hd => hstands d (Node.mem_closing_of_surfaced hn d hd)

/-- A node has a word for a name if its token has. -/
theorem Node.StandsIn.spelt {ts : List Token} {n : Node} (h : n.StandsIn ts)
    (hwords : ∀ t ∈ ts, t.kind = .word → Node.IsWord t.lexeme) : n.Spelt := by
  cases n with
  | word name | reference name =>
      obtain ⟨t, ht, hkind, hname⟩ := h
      exact hname ▸ Node.spelt_ofWord (hwords t ht hkind)
  | declaration name | definition name body =>
      obtain ⟨t, ht, hkind, rfl⟩ := h
      exact hwords t ht hkind
  | number | text | conditional | loop | collection => exact trivial

/-- All names in the nodes of a parsed source are words. -/
theorem spelt_of_parse {source : String} {forest : List Node} {n : Node}
    (h : parse source = .ok forest) (hn : n ∈ Node.closing forest) : n.Every Node.Spelt :=
  fun d hd => (standsIn_of_parse h hn d hd).spelt fun _ ht => (of_mem_scan ht).2

/-! ### Reading what was rendered -/

namespace Node

/-- What a number becomes. -/
def rereadNumber (x : Float) : List Node :=
  match x.toModel.unpack with
  | .notANumber => [word "NaN"]
  | .infinity .positive => [word "inf"]
  | .infinity .negative => [word "-", word "inf"]
  | _ => [number x]

theorem isFinite_eq (x : Float) : x.isFinite = x.toModel.unpack.isFinite := rfl

theorem rereadNumber_eq_iff (x : Float) : rereadNumber x = [number x] ↔ x.isFinite = true := by
  rw [isFinite_eq]
  unfold rereadNumber
  cases x.toModel.unpack with
  | notANumber => simp [Float.Model.UnpackedFloat.isFinite]
  | infinity sign => cases sign <;> simp [Float.Model.UnpackedFloat.isFinite]
  | zero => simp [Float.Model.UnpackedFloat.isFinite]
  | finite => simp [Float.Model.UnpackedFloat.isFinite]

mutual

/-- What a node becomes when it is rendered and read. -/
def reread : Node → List Node
  | number x => rereadNumber x
  | text s => [text (String.ofList (s.toList.flatMap Text.reread))]
  | definition name body => [definition name (rereadAll body)]
  | conditional thenBody elseBody => [conditional (rereadAll thenBody) (rereadAll elseBody)]
  | loop body => [loop (rereadAll body)]
  | collection shape body => [collection shape (rereadAll body)]
  | n => [n]

/-- What the nodes of a body become. -/
def rereadAll : List Node → List Node
  | [] => []
  | n :: ns => n.reread ++ rereadAll ns

end

end Node

/-- A name is one token that spells it. -/
theorem reads_name {name : String} (h : Node.IsWord name) :
    Reads name.toList fun ts => ∃ t : Token, ts = [t] ∧ t.kind = .word ∧ t.lexeme = name := by
  refine (Reads.token h).imp ?_
  rintro ts ⟨offset, rfl⟩
  exact ⟨_, rfl, rfl, String.ofList_toList⟩

/-- A word that stands for a node. -/
theorem reads_word {name : String} {n : Node} (h : Node.IsWord name) (hn : Node.ofWord name = n) :
    Reads name.toList fun ts => Items ts [n] := by
  refine (reads_name h).imp ?_
  rintro ts ⟨t, rfl, hkind, rfl⟩
  rw [← hn]
  exact Items.single (.word hkind)

/-- The keywords are tokens of the kinds they name. -/
theorem spells_keyword {name : String} (h : TokenKind.ofWord name ≠ .word) :
    Spells name.toList (.ofWord name) name.toList := by
  have hstart : ∃ c cs, name.toList = c :: cs ∧ Spells.StartsWord c ∧
      (c :: cs).all (!Text.isSeparator ·) = true := by
    unfold TokenKind.ofWord at h
    split_ifs at h with hvar hif helse hthen hfor hend
    · exact ⟨'v', ['a', 'r'], hvar ▸ rfl, ⟨by decide, by decide, by decide⟩, by decide⟩
    · exact ⟨'i', ['f'], hif ▸ rfl, ⟨by decide, by decide, by decide⟩, by decide⟩
    · exact ⟨'e', ['l', 's', 'e'], helse ▸ rfl, ⟨by decide, by decide, by decide⟩, by decide⟩
    · exact ⟨'t', ['h', 'e', 'n'], hthen ▸ rfl, ⟨by decide, by decide, by decide⟩, by decide⟩
    · exact ⟨'f', ['o', 'r'], hfor ▸ rfl, ⟨by decide, by decide, by decide⟩, by decide⟩
    · exact ⟨'e', ['n', 'd'], hend ▸ rfl, ⟨by decide, by decide, by decide⟩, by decide⟩
    · exact absurd rfl h
  obtain ⟨c, cs, hname, hword, hrun⟩ := hstart
  have hspells := Spells.word hword fun d hd => by simpa using List.all_eq_true.mp hrun d hd
  rwa [← hname, String.ofList_toList] at hspells

/-- A scope: a token, a body behind a separator, and a token behind a space. -/
theorem Reads.scope {opener body closer first last : List Char} {kind kind' : TokenKind}
    {P : List Token → Prop} (hopener : Spells opener kind first) (hbody : Reads body P)
    (hsep : Separated body) (hcloser : Spells closer kind' last) :
    Reads (opener ++ (body ++ ' ' :: closer)) fun ts => ∃ t us close, t.kind = kind ∧ P us ∧
      close.kind = kind' ∧ ts = t :: (us ++ [close]) := by
  have hspace : Text.isSeparator ' ' = true := by decide
  have hend := (Reads.token hcloser).separator hspace
  have hinner := hbody.append hend (separated_cons hspace closer)
  have houter := (Reads.token hopener).append hinner (hsep.append (separated_cons hspace closer))
  refine houter.imp ?_
  rintro ts ⟨_, _, ⟨offset, rfl⟩, ⟨us, _, hus, ⟨offset', rfl⟩, rfl⟩, rfl⟩
  exact ⟨_, us, _, rfl, hus, rfl, rfl⟩

/-! ### Literals -/

theorem spells_number {x : Float} (hx : x.isFinite = true) :
    Spells (Node.number x).render.toList (.number x) (Node.number x).render.toList := by
  have hread : Decimal.read? (Node.number x).render.toList = some x :=
    Decimal.read?_write (fun _ => rfl) hx
  obtain ⟨negative, cs, v, hwrite, hnumeral, -⟩ :=
    @Decimal.write_numeral Node.numberStyle (fun _ => rfl) x hx
  obtain ⟨hchars, c, rest, hcs, hdigit⟩ := hnumeral.chars
  have hnumeric : ∀ d ∈ cs, isNumeric d = true := by
    intro d hd
    rcases hchars d hd with hd | rfl
    · simp [isNumeric, hd]
    · decide
  have hshape : ∃ first run, (Node.number x).render.toList = first :: run ∧
      startsNumber first = true ∧ ∀ d ∈ run, isNumeric d = true := by
    have hrender : (Node.number x).render.toList = Decimal.signMark negative ++ cs := hwrite
    cases negative with
    | true => exact ⟨'-', cs, hrender, by decide, hnumeric⟩
    | false =>
        have hrun : ∀ d ∈ rest, isNumeric d = true := fun d hd => hnumeric d (by simp [hcs, hd])
        exact ⟨c, rest, hrender.trans hcs, by simp [startsNumber, hdigit], hrun⟩
  obtain ⟨first, run, hrender, hstart, hrun⟩ := hshape
  have hspells := Spells.numeric hstart hrun
  rw [← hrender, Spells.numericKind, hread] at hspells
  exact hspells

theorem isWord_inf : Node.IsWord "inf" :=
  @Spells.word 'i' ['n', 'f'] ⟨by decide, by decide, by decide⟩ (by simp [Text.isSeparator])

/-- Nothing stands between the minus sign and the word, but no numeral goes on with it. -/
theorem reads_negativeInfinity :
    Reads "-inf".toList fun ts => Items ts [.word "-", .word "inf"] := by
  have hsign : Node.ofWord "-" = .word "-" := rfl
  have hword : Node.ofWord "inf" = .word "inf" := rfl
  intro offset rest hrest
  obtain ⟨ts, offset', hitems, htokens⟩ :=
    reads_word isWord_inf hword (offset + Text.width ['-']) rest hrest
  have hminus : Lexeme.read '-' ("inf".toList ++ rest) =
      ⟨.word, ['-'], ['-'], "inf".toList ++ rest⟩ := rfl
  refine ⟨⟨.word, "-", offset⟩ :: ts, offset', ?_, ?_⟩
  · exact .cons (hsign ▸ @Item.word ⟨.word, "-", offset⟩ rfl) hitems
  · show Cursor.tokens ⟨offset, '-' :: ("inf".toList ++ rest)⟩ = _
    rw [Cursor.tokens_cons (by decide), hminus]
    dsimp only
    rw [htokens]
    rfl

theorem reads_number (x : Float) :
    Reads (Node.number x).render.toList fun ts => Items ts (Node.rereadNumber x) := by
  by_cases hx : x.isFinite = true
  · rw [(Node.rereadNumber_eq_iff x).mpr hx]
    refine (Reads.token (spells_number hx)).imp ?_
    rintro ts ⟨offset, rfl⟩
    exact Items.single (.number rfl)
  · have hnan : Node.IsWord "NaN" :=
      @Spells.word 'N' ['a', 'N'] ⟨by decide, by decide, by decide⟩ (by simp [Text.isSeparator])
    rw [Node.isFinite_eq] at hx
    unfold Node.render Decimal.write Node.rereadNumber
    cases hunpack : x.toModel.unpack with
    | notANumber => exact reads_word hnan rfl
    | infinity sign =>
        cases sign with
        | positive => exact reads_word isWord_inf rfl
        | negative => exact reads_negativeInfinity
    | zero => exact absurd (by rw [hunpack]; rfl) hx
    | finite => exact absurd (by rw [hunpack]; rfl) hx

theorem reads_text (s : String) :
    Reads (Node.text s).render.toList fun ts => Items ts (Node.text s).reread := by
  have hshown : (Node.text s).render.toList = '"' :: (s.toList.flatMap Text.showChar ++ ['"']) :=
    String.toList_ofList
  have hspells := Spells.quoted (Text.splitQuoted_shown s.toList)
  rw [hshown]
  refine (Reads.token hspells).imp ?_
  rintro ts ⟨offset, rfl⟩
  have hitem := @Item.text ⟨.text, String.ofList (s.toList.flatMap Text.showChar), offset⟩ rfl
  rw [String.toList_ofList, Text.unescape_shown] at hitem
  exact Items.single hitem

/-! ### Nodes -/

theorem reads_declaration {name : String} (h : Node.IsWord name) :
    Reads (Node.declaration name).render.toList fun ts => Items ts [.declaration name] := by
  have hspace : Text.isSeparator ' ' = true := by decide
  have hvar : Spells "var".toList .varKeyword "var".toList := spells_keyword (by decide)
  have hrender : (Node.declaration name).render.toList = "var".toList ++ ' ' :: name.toList :=
    String.toList_append
  have hname := (reads_name h).separator hspace
  rw [hrender]
  refine ((Reads.token hvar).append hname (separated_cons hspace _)).imp ?_
  rintro ts ⟨_, _, ⟨offset, rfl⟩, ⟨t, rfl, hkind, rfl⟩, rfl⟩
  exact Items.single (.declaration rfl hkind)

theorem renderBody_separated (ns : List Node) : Separated (Node.renderBody ns).toList := by
  cases ns with
  | nil => exact separated_nil
  | cons n ns =>
      unfold Node.renderBody
      rw [String.toList_append, String.toList_append]
      exact separated_cons (by decide) _

section Scopes

variable {body elseBody : List Node} {ns ms : List Node}

theorem reads_definition {name : String} (hname : Node.IsWord name)
    (h : Reads (Node.renderBody body).toList fun ts => Items ts ns) :
    Reads (Node.definition name body).render.toList fun ts => Items ts [.definition name ns] := by
  have hspace : Text.isSeparator ' ' = true := by decide
  have hcolon : Spells [':'] .colon [':'] := Spells.punctuation rfl rfl
  have hsemicolon : Spells [';'] .semicolon [';'] := Spells.punctuation rfl rfl
  have hrender : (Node.definition name body).render.toList =
      [':'] ++ ((' ' :: (name.toList ++ (Node.renderBody body).toList)) ++ ' ' :: [';']) := by
    rw [Node.render, String.toList_append, String.toList_append, String.toList_append]
    simp
  have hnamed := ((reads_name hname).append h (renderBody_separated body)).separator hspace
  rw [hrender]
  refine (Reads.scope hcolon hnamed (separated_cons hspace _) hsemicolon).imp ?_
  rintro ts ⟨t, _, close, ht, ⟨_, us, ⟨name, rfl, hkind, rfl⟩, hus, rfl⟩, hclose, rfl⟩
  exact Items.single (.definition ht hkind hus hclose)

/-- A node that is written as a body between two tokens. -/
theorem reads_enclosed {n m : Node} {opener closer : String} {kind kind' : TokenKind}
    (hopener : Spells opener.toList kind opener.toList)
    (hcloser : Spells closer.toList kind' closer.toList)
    (hrender : n.render = opener ++ Node.renderBody body ++ (" " ++ closer))
    (hitem : ∀ {t close : Token} {us : List Token}, t.kind = kind → Items us ns →
      close.kind = kind' → Item (t :: (us ++ [close])) m)
    (h : Reads (Node.renderBody body).toList fun ts => Items ts ns) :
    Reads n.render.toList fun ts => Items ts [m] := by
  have htext : n.render.toList =
      opener.toList ++ ((Node.renderBody body).toList ++ ' ' :: closer.toList) := by
    rw [hrender, String.toList_append, String.toList_append, List.append_assoc]
    simp
  rw [htext]
  refine (Reads.scope hopener h (renderBody_separated body) hcloser).imp ?_
  rintro ts ⟨t, us, close, ht, hus, hclose, rfl⟩
  exact Items.single (hitem ht hus hclose)

theorem reads_conditional (h : Reads (Node.renderBody body).toList fun ts => Items ts ns) :
    Reads (Node.conditional body []).render.toList fun ts => Items ts [.conditional ns []] := by
  have hif : Spells "if".toList .ifKeyword "if".toList := spells_keyword (by decide)
  have hthen : Spells "then".toList .thenKeyword "then".toList := spells_keyword (by decide)
  exact reads_enclosed hif hthen rfl .conditional h

theorem reads_alternative (hne : elseBody ≠ [])
    (h : Reads (Node.renderBody body).toList fun ts => Items ts ns)
    (helse : Reads (Node.renderBody elseBody).toList fun ts => Items ts ms) :
    Reads (Node.conditional body elseBody).render.toList fun ts =>
      Items ts [.conditional ns ms] := by
  have hspace : Text.isSeparator ' ' = true := by decide
  have hif : Spells "if".toList .ifKeyword "if".toList := spells_keyword (by decide)
  have hmiddle : Spells "else".toList .elseKeyword "else".toList := spells_keyword (by decide)
  have hthen : Spells "then".toList .thenKeyword "then".toList := spells_keyword (by decide)
  have hrender : (Node.conditional body elseBody).render.toList =
      "if".toList ++ (((Node.renderBody body).toList ++ ' ' :: ("else".toList ++
        (Node.renderBody elseBody).toList)) ++ ' ' :: "then".toList) := by
    obtain ⟨n, rest, rfl⟩ := List.exists_cons_of_ne_nil hne
    rw [Node.render, String.toList_append, String.toList_append, String.toList_append,
      String.toList_append]
    simp
  have hsecond := (Reads.token hmiddle).append helse (renderBody_separated elseBody)
  have hboth := h.append (hsecond.separator hspace) (separated_cons hspace _)
  have hsep := (renderBody_separated body).append (separated_cons hspace
    ("else".toList ++ (Node.renderBody elseBody).toList))
  rw [hrender]
  refine (Reads.scope hif hboth hsep hthen).imp ?_
  rintro ts ⟨t, _, close, ht, ⟨us, _, hus, ⟨_, vs, ⟨offset, rfl⟩, hvs, rfl⟩, rfl⟩, hclose, rfl⟩
  have hitem := @Item.alternative t ⟨.elseKeyword, String.ofList "else".toList, offset⟩ close us vs
    ns ms ht hus rfl hvs hclose
  rw [List.append_assoc]
  exact Items.single hitem

theorem reads_loop (h : Reads (Node.renderBody body).toList fun ts => Items ts ns) :
    Reads (Node.loop body).render.toList fun ts => Items ts [.loop ns] := by
  have hfor : Spells "for".toList .forKeyword "for".toList := spells_keyword (by decide)
  have hend : Spells "end".toList .endKeyword "end".toList := spells_keyword (by decide)
  exact reads_enclosed hfor hend rfl .loop h

theorem reads_collection (shape : Shape)
    (h : Reads (Node.renderBody body).toList fun ts => Items ts ns) :
    Reads (Node.collection shape body).render.toList fun ts => Items ts [.collection shape ns] := by
  cases shape with
  | list =>
      have hopener : Spells "[".toList .leftBracket "[".toList := Spells.punctuation rfl rfl
      have hcloser : Spells "]".toList .rightBracket "]".toList := Spells.punctuation rfl rfl
      exact reads_enclosed hopener hcloser rfl
        (fun ht hus hclose => @Item.collection .list _ _ _ _ ht hus hclose) h
  | vector =>
      have hopener : Spells "\x7b".toList .leftBrace "\x7b".toList := Spells.punctuation rfl rfl
      have hcloser : Spells "\x7d".toList .rightBrace "\x7d".toList := Spells.punctuation rfl rfl
      exact reads_enclosed hopener hcloser rfl
        (fun ht hus hclose => @Item.collection .vector _ _ _ _ ht hus hclose) h

end Scopes

mutual

/-- **A rendered node is a derivation of what it becomes.** -/
theorem Node.render_reads : ∀ n : Node, n.Every Node.Spelt →
    Reads n.render.toList fun ts => Items ts n.reread
  | .word name, h => by
      obtain ⟨hword, hnode⟩ := (Node.every_leaf rfl).mp h
      exact reads_word hword hnode
  | .reference name, h => by
      obtain ⟨hword, hnode⟩ := (Node.every_leaf rfl).mp h
      exact reads_word hword hnode
  | .number x, _ => reads_number x
  | .text s, _ => reads_text s
  | .declaration name, h => reads_declaration ((Node.every_leaf rfl).mp h)
  | .definition name body, h => by
      obtain ⟨hinside, hname⟩ := Node.every_iff.mp h
      exact reads_definition hname (Node.renderBody_reads body hinside)
  | .conditional thenBody [], h => by
      obtain ⟨hinside, -⟩ := Node.every_iff.mp h
      obtain ⟨hthen, -⟩ := List.forall_mem_append.mp hinside
      exact reads_conditional (Node.renderBody_reads thenBody hthen)
  | .conditional thenBody (n :: ns), h => by
      obtain ⟨hinside, -⟩ := Node.every_iff.mp h
      obtain ⟨hthen, helse⟩ := List.forall_mem_append.mp hinside
      exact reads_alternative (by simp) (Node.renderBody_reads thenBody hthen)
        (Node.renderBody_reads (n :: ns) helse)
  | .loop body, h => by
      obtain ⟨hinside, -⟩ := Node.every_iff.mp h
      exact reads_loop (Node.renderBody_reads body hinside)
  | .collection shape body, h => by
      obtain ⟨hinside, -⟩ := Node.every_iff.mp h
      exact reads_collection shape (Node.renderBody_reads body hinside)

/-- A rendered body is a derivation of what its nodes become. -/
theorem Node.renderBody_reads : ∀ ns : List Node, (∀ d ∈ Node.closing ns, d.Spelt) →
    Reads (Node.renderBody ns).toList fun ts => Items ts (Node.rereadAll ns)
  | [], _ => by
      refine Reads.nil.imp ?_
      rintro ts rfl
      exact .nil
  | n :: ns, h => by
      obtain ⟨hn, hns⟩ := Node.forall_closing_cons.mp h
      have hfirst := Node.render_reads n hn
      have hrest := Node.renderBody_reads ns hns
      have hrender : (Node.renderBody (n :: ns)).toList =
          ' ' :: (n.render.toList ++ (Node.renderBody ns).toList) := by
        rw [Node.renderBody, String.toList_append, String.toList_append]
        rfl
      rw [hrender]
      refine ((hfirst.append hrest (renderBody_separated ns)).separator (by decide)).imp ?_
      rintro ts ⟨us, vs, hus, hvs, rfl⟩
      exact hus.append hvs

end

/-! ### Legible nodes -/

namespace Node

/-- A literal, if it is one, that is written so that it can be read: a finite number, or a text
of legible characters. -/
def LegibleLiteral : Node → Prop
  | number x => x.isFinite = true
  | text s => ∀ c ∈ s.toList, Text.Legible c
  | _ => True

instance : DecidablePred LegibleLiteral
  | number x => inferInstanceAs (Decidable (x.isFinite = true))
  | text s => List.decidableBAll Text.Legible s.toList
  | word _ | reference _ | declaration _ | definition _ _ | conditional _ _ | loop _
  | collection _ _ => .isTrue trivial

/-- All literals of a node are legible. -/
def Legible (n : Node) : Prop :=
  n.Every LegibleLiteral

instance (n : Node) : Decidable n.Legible :=
  List.decidableBAll LegibleLiteral (n.inside ++ [n])

theorem legible_leaf (n : Node) (h : n.inside = []) : n.Legible ↔ n.LegibleLiteral :=
  every_leaf h

theorem legible_scope (n : Node) (h : n.LegibleLiteral) :
    n.Legible ↔ ∀ d ∈ n.inside, d.LegibleLiteral :=
  every_scope h

/-- A node becomes one node, unless it becomes others altogether. -/
theorem reread_cons (n : Node) : ∃ m ms, n.reread = m :: ms ∧ (m = n → ms = []) := by
  cases n with
  | number x =>
      unfold reread rereadNumber
      cases x.toModel.unpack with
      | infinity sign => cases sign <;> exact ⟨_, _, rfl, by simp⟩
      | _ => exact ⟨_, _, rfl, fun _ => rfl⟩
  | _ => exact ⟨_, _, rfl, fun _ => rfl⟩

theorem reread_append_eq_iff {n : Node} {ms ns : List Node} :
    n.reread ++ ms = n :: ns ↔ n.reread = [n] ∧ ms = ns := by
  obtain ⟨m, others, hreread, hothers⟩ := n.reread_cons
  rw [hreread]
  constructor
  · intro h
    obtain ⟨hm, hrest⟩ := List.cons.inj h
    rw [hothers hm] at hrest ⊢
    exact ⟨by rw [hm], hrest⟩
  · rintro ⟨h, rfl⟩
    rw [h]
    rfl

theorem rereadText_eq_iff (s : String) :
    (text s).reread = [text s] ↔ ∀ c ∈ s.toList, Text.Legible c := by
  have hsame : text (String.ofList (s.toList.flatMap Text.reread)) = text s ↔
      s.toList.flatMap Text.reread = s.toList := by
    rw [text.injEq, ← String.toList_inj, String.toList_ofList]
  rw [← Text.unescape_shown_iff, Text.unescape_shown, ← hsame, reread, List.cons.injEq]
  exact and_iff_left rfl

mutual

/-- A node stays as it is if and only if its literals are legible. -/
theorem reread_eq_iff : ∀ n : Node, n.reread = [n] ↔ n.Legible
  | word _ => iff_of_true rfl ((legible_leaf _ rfl).mpr trivial)
  | reference _ => iff_of_true rfl ((legible_leaf _ rfl).mpr trivial)
  | declaration _ => iff_of_true rfl ((legible_leaf _ rfl).mpr trivial)
  | number x => (rereadNumber_eq_iff x).trans (legible_leaf (number x) rfl).symm
  | text s => (rereadText_eq_iff s).trans (legible_leaf (text s) rfl).symm
  | definition name body => by
      rw [legible_scope (definition name body) trivial, inside, ← rereadAll_eq_iff body]
      simp [reread]
  | conditional thenBody elseBody => by
      rw [legible_scope (conditional thenBody elseBody) trivial, inside, List.forall_mem_append,
        ← rereadAll_eq_iff thenBody, ← rereadAll_eq_iff elseBody]
      simp [reread]
  | loop body => by
      rw [legible_scope (loop body) trivial, inside, ← rereadAll_eq_iff body]
      simp [reread]
  | collection shape body => by
      rw [legible_scope (collection shape body) trivial, inside, ← rereadAll_eq_iff body]
      simp [reread]

/-- The nodes of a body stay as they are if and only if their literals are legible. -/
theorem rereadAll_eq_iff : ∀ ns : List Node,
    rereadAll ns = ns ↔ ∀ d ∈ closing ns, d.LegibleLiteral
  | [] => by simp [rereadAll, closing]
  | n :: ns => by
      rw [rereadAll, reread_append_eq_iff, forall_closing_cons, reread_eq_iff n,
        rereadAll_eq_iff ns]
      rfl

end

end Node

/--
**A node of a source is read back from what it is rendered to if and only if it is legible.**

The node may stand anywhere in the forest of any source that parses.  Reading its
rendering then answers with the node behind the definitions strictly inside it,
which are put into the forest as they close.  All that can go wrong is in the
literals: numbers that are not finite, and characters of a text that are shown in
a form that is no escape.
-/
theorem parse_render_iff {source : String} {forest : List Node} {n : Node}
    (h : parse source = .ok forest) (hn : n ∈ Node.closing forest) :
    parse n.render = .ok (n.nested ++ [n]) ↔ n.Legible := by
  have hitems : Items (Token.scan n.render) n.reread :=
    (n.render_reads (spelt_of_parse h hn)).scan
  have hparse : parse n.render = .ok (Node.surfaced n.reread) := parseTokens_of_items hitems
  have hsurfaced : n.nested ++ [n] = Node.surfaced [n] := by simp [Node.surfaced]
  rw [hparse, hsurfaced, Except.ok.injEq, ← Node.reread_eq_iff]
  constructor
  · exact Node.surfaced_injective
  · intro hsame
    rw [hsame]

/-- A definition inside a conditional, which is legible, and a text with a null character, which
is not. -/
theorem parse_render_iff_nested :
    let inner := Node.definition "g" [.number 1.5, .text "\n\""]
    let outer := Node.conditional [.word "1-2", .reference "x"] [inner]
    let null := Node.text "\x00"
    parse "if 1-2 &x else : g 1.5 \"\\n\\\"\" ; then \"\x00\"" = .ok [inner, outer, null] ∧
      parse outer.render = .ok [inner, outer] ∧ parse null.render ≠ .ok [null] := by
  intro inner outer null
  have hscan : Token.scan "if 1-2 &x else : g 1.5 \"\\n\\\"\" ; then \"\x00\"" =
      [⟨.ifKeyword, "if", 0⟩, ⟨.word, "1-2", 3⟩, ⟨.word, "&x", 7⟩, ⟨.elseKeyword, "else", 10⟩,
        ⟨.colon, ":", 15⟩, ⟨.word, "g", 17⟩, ⟨.number 1.5, "1.5", 19⟩, ⟨.text, "\\n\\\"", 23⟩,
        ⟨.semicolon, ";", 30⟩, ⟨.thenKeyword, "then", 32⟩, ⟨.text, "\x00", 37⟩] := by
    decide +kernel
  have hparse : parse "if 1-2 &x else : g 1.5 \"\\n\\\"\" ; then \"\x00\"" =
      .ok [inner, outer, null] := by
    rw [parse, hscan]
    rfl
  have houter : outer ∈ Node.closing [inner, outer, null] := by simp [Node.closing]
  have hnull : null ∈ Node.closing [inner, outer, null] := by simp [Node.closing]
  have hlegible : outer.Legible := by decide +kernel
  have hillegible : ¬ null.Legible := by decide +kernel
  refine ⟨hparse, (parse_render_iff hparse houter).mpr hlegible, ?_⟩
  intro hback
  exact hillegible ((parse_render_iff hparse hnull).mp hback)

end DualStack
